import Mathlib.Data.List.Forall2
import PackageAudit.Proofs.Config.Entries
import PackageAudit.Proofs.Graph.Requests
import PackageAudit.Proofs.Results
import PackageAudit.Proofs.Text.Ordered
/-!
Configuration from lines of `key=value`, told without going through the lines.

Every setting is described by the entries alone: patterns by all entries that give some, every other setting
by the last entry that gives it. An entry put behind others either gives a setting, and is then the last one
to do so, or leaves it as the others have it. So what the entries read so far describe stays what the
configuration holds, and reading stops at the first entry that gives no boolean where one is required.
-/

namespace PackageAudit.Config

/-- The last entry of a kind. -/
def IsLast (among : String × String → Prop) (entries : List (String × String))
    (entry : String × String) : Prop :=
  ∃ before after, entries = before ++ entry :: after ∧ among entry ∧ ∀ later ∈ after, ¬ among later

section Last

variable {among : String × String → Prop} {entries : List (String × String)}
  {entry other next : String × String}

open Classical in
/-- The last entry is the first one met from the end. -/
theorem isLast_iff_find? :
    IsLast among entries entry ↔ entries.reverse.find? (among ·) = some entry := by
  simp only [List.find?_eq_some_iff_append, IsLast, decide_eq_true_eq, Bool.not_eq_true',
    decide_eq_false_iff_not]
  constructor
  · rintro ⟨before, after, rfl, kind, others⟩
    refine ⟨kind, after.reverse, before.reverse, by simp, ?_⟩
    exact fun later member => others later (List.mem_reverse.mp member)
  · rintro ⟨kind, after, before, split, others⟩
    refine ⟨before.reverse, after.reverse, by simpa using congrArg List.reverse split, kind, ?_⟩
    exact fun later member => others later (List.mem_reverse.mp member)

theorem IsLast.unique (last : IsLast among entries entry) (last' : IsLast among entries other) :
    entry = other := by
  rw [isLast_iff_find?] at last last'
  exact Option.some.inj (last.symm.trans last')

/-- An entry behind all others is the last one if it is of the kind at all. -/
theorem isLast_concat_of (kind : among next) :
    IsLast among (entries ++ [next]) entry ↔ entry = next := by
  rw [isLast_iff_find?, List.reverse_concat, List.find?_cons_of_pos (by simpa using kind),
    Option.some.injEq, eq_comm]

theorem isLast_concat_of_not (kind : ¬ among next) :
    IsLast among (entries ++ [next]) entry ↔ IsLast among entries entry := by
  rw [isLast_iff_find?, List.reverse_concat, List.find?_cons_of_neg (by simpa using kind),
    isLast_iff_find?]

end Last

section Settings

variable {α : Type} (key : String) (gives : String → α → Prop) (default : α)

/-- A setting is what the last entry of its key gives, and without such an entry it keeps its default. -/
def IsSetTo (entries : List (String × String)) (setting : α) : Prop :=
  (∃ value, IsLast (·.1 = key) entries (key, value) ∧ gives value setting) ∨
    (∀ entry ∈ entries, entry.1 ≠ key) ∧ setting = default

/-- What an entry makes of a setting. -/
def Changes (entry : String × String) (before after : α) : Prop :=
  entry.1 = key ∧ gives entry.2 after ∨ entry.1 ≠ key ∧ after = before

variable {key gives default} {entries : List (String × String)} {entry : String × String}
  {before after : α}

theorem IsSetTo.concat (set : IsSetTo key gives default entries before)
    (changed : Changes key gives entry before after) :
    IsSetTo key gives default (entries ++ [entry]) after := by
  rcases changed with ⟨rfl, given⟩ | ⟨other, rfl⟩
  · have last : IsLast (·.1 = entry.1) (entries ++ [entry]) entry :=
      (isLast_concat_of (by rfl)).mpr rfl
    exact .inl ⟨entry.2, last, given⟩
  · rcases set with ⟨value, last, given⟩ | ⟨none, rfl⟩
    · exact .inl ⟨value, (isLast_concat_of_not other).mpr last, given⟩
    · rw [IsSetTo, List.forall_mem_append, List.forall_mem_singleton]
      exact .inr ⟨⟨none, other⟩, rfl⟩

theorem IsLast.not_forall_ne {value : String} (last : IsLast (·.1 = key) entries (key, value)) :
    ¬ ∀ entry ∈ entries, entry.1 ≠ key := by
  obtain ⟨before, after, rfl, -⟩ := last
  exact fun none => none (key, value) (by simp) rfl

theorem IsSetTo.unique
    (functional : ∀ value one other, gives value one → gives value other → one = other)
    (set : IsSetTo key gives default entries before) (set' : IsSetTo key gives default entries after) :
    before = after := by
  rcases set with ⟨value, last, given⟩ | ⟨none, rfl⟩ <;>
    rcases set' with ⟨value', last', given'⟩ | ⟨none', rfl⟩
  · obtain rfl : value = value' := congrArg Prod.snd (last.unique last')
    exact functional value _ _ given given'
  · exact absurd none' last.not_forall_ne
  · exact absurd none last'.not_forall_ne
  · rfl

end Settings

/-- Each entry whose key begins with `ignore` gives the items of its value. -/
def GivePatterns (entries : List (String × String)) (found : List String) : Prop :=
  ∃ lists, List.Forall₂ (fun entry items => Text.ListsItems entry.2 items)
    (entries.filter (Text.startsWith "ignore" ·.1)) lists ∧ found = lists.flatten

def patterns (entries : List (String × String)) : List String :=
  (entries.filter (Text.startsWith "ignore" ·.1)).flatMap (Text.splitList ·.2)

theorem givePatterns_iff (entries : List (String × String)) (found : List String) :
    GivePatterns entries found ↔ patterns entries = found := by
  simp only [GivePatterns, ← Text.splitList_eq_iff]
  -- What is related one by one through an equation is a map.
  have read (lists : List (List String)) :
      List.Forall₂ (fun entry items => Text.splitList entry.2 = items)
        (entries.filter (Text.startsWith "ignore" ·.1)) lists ↔
      (entries.filter (Text.startsWith "ignore" ·.1)).map (Text.splitList ·.2) = lists := by
    rw [← List.forall₂_map_left_iff (R := Eq), List.forall₂_eq_eq_eq]
  simp only [read, exists_eq_left']
  rw [patterns, List.flatMap_def, eq_comm]

theorem patterns_append (entries others : List (String × String)) :
    patterns (entries ++ others) = patterns entries ++ patterns others := by
  rw [patterns, List.filter_append, List.flatMap_append, patterns, patterns]

theorem foldl_addPattern_eraseDups (old new : List String) :
    new.foldl addPattern old.eraseDups = (old ++ new).eraseDups := by
  induction new generalizing old with
  | nil => rw [List.append_nil, List.foldl_nil]
  | cons pattern rest ih =>
    rw [List.foldl_cons, addPattern, ← eraseDups_concat, ih, List.append_assoc, List.singleton_append]

/-- Keys that have no meaning of their own name packages. -/
def NamesPackage (key : String) : Prop :=
  Text.startsWith "ignore" key = false ∧
    key ∉ ["analyzeInnerClasses", "allowSelfDependency", "components"]

/-- An entry for the volatility of a package. -/
def GivesVolatility (name : String) (entry : String × String) : Prop :=
  entry.1 = name ∧ NamesPackage name ∧ ∃ n, SpellsVolatility entry.2 n

/-- The configuration that entries describe. -/
structure Describes (entries : List (String × String)) (config : Config) : Prop where
  ignore : ∃ found, GivePatterns entries found ∧ config.ignore = found.eraseDups
  components : IsSetTo "components" Text.ListsItems [] entries config.components
  analyzeInnerClasses : IsSetTo "analyzeInnerClasses" SpellsBool true entries config.analyzeInnerClasses
  allowSelfDependency : IsSetTo "allowSelfDependency" SpellsBool false entries config.allowSelfDependency
  ascending : Text.Ascending config.volatility
  volatility : ∀ name n, (name, n) ∈ config.volatility ↔
    ∃ value, IsLast (GivesVolatility name) entries (name, value) ∧ SpellsVolatility value n

/-- What an entry makes of a configuration. -/
structure Applies (entry : String × String) (before after : Config) : Prop where
  ignore : after.ignore = (patterns [entry]).foldl addPattern before.ignore
  components : Changes "components" Text.ListsItems entry before.components after.components
  analyzeInnerClasses :
    Changes "analyzeInnerClasses" SpellsBool entry before.analyzeInnerClasses after.analyzeInnerClasses
  allowSelfDependency :
    Changes "allowSelfDependency" SpellsBool entry before.allowSelfDependency after.allowSelfDependency
  volatility :
    (∃ n, NamesPackage entry.1 ∧ SpellsVolatility entry.2 n ∧
      after.volatility = Text.insertBinding entry.1 n before.volatility) ∨
    ¬ GivesVolatility entry.1 entry ∧ after.volatility = before.volatility

/-- An entry that should give a boolean and does not. -/
def Misspelt (entry : String × String) : Prop :=
  entry.1 ∈ ["analyzeInnerClasses", "allowSelfDependency"] ∧ ∀ b, ¬ SpellsBool entry.2 b

theorem requireBool_eq_ok_iff (key value : String) (b : Bool) :
    requireBool key value = .ok b ↔ SpellsBool value b := by
  rw [requireBool, ← readBool?_eq_some_iff]
  cases readBool? value <;> simp

theorem apply_of_misspelt (config : Config) {key value : String} (misspelt : Misspelt (key, value)) :
    apply config (key, value) = .error (.invalidValue key value) := by
  obtain ⟨required, unspelt⟩ := misspelt
  have unread : requireBool key value = .error (.invalidValue key value) := by
    have none : readBool? value = none := by
      rw [Option.eq_none_iff_forall_ne_some]
      exact fun b read => unspelt b ((readBool?_eq_some_iff _ _).mp read)
    rw [requireBool, none]
  -- Neither of the two keys begins with `ignore`, so the value is not taken for patterns.
  rw [List.mem_pair] at required
  rcases required with rfl | rfl
  · rw [apply, if_neg (by decide), if_pos rfl, unread]
    rfl
  · rw [apply, if_neg (by decide), if_neg (by decide), if_pos rfl, unread]
    rfl

/-- An entry that is taken makes of a configuration what its key says. -/
theorem applies_of_apply {config after : Config} {key value : String}
    (applied : apply config (key, value) = .ok after) : Applies (key, value) config after := by
  rw [apply] at applied
  -- One case for each kind of key; the settings of all other kinds are kept.
  split_ifs at applied with ignored inner self together
  · obtain rfl := Except.ok.inj applied
    have apart (other : String) (plain : Text.startsWith "ignore" other = false) : key ≠ other := by
      rintro rfl
      simp [plain] at ignored
    exact {
      ignore := by simp [patterns, ignored]
      components := .inr ⟨apart _ (by decide), rfl⟩
      analyzeInnerClasses := .inr ⟨apart _ (by decide), rfl⟩
      allowSelfDependency := .inr ⟨apart _ (by decide), rfl⟩
      volatility := .inr ⟨fun given => absurd given.2.1.1 (by simp [ignored]), rfl⟩ }
  · obtain ⟨b, read, same⟩ := bind_eq_ok_iff.mp applied
    obtain rfl := Except.ok.inj same
    subst inner
    exact {
      ignore := by simp [patterns, ignored]
      components := .inr ⟨by simp, rfl⟩
      analyzeInnerClasses := .inl ⟨rfl, (requireBool_eq_ok_iff _ _ _).mp read⟩
      allowSelfDependency := .inr ⟨by simp, rfl⟩
      volatility := .inr ⟨fun given => given.2.1.2 (by simp), rfl⟩ }
  · obtain ⟨b, read, same⟩ := bind_eq_ok_iff.mp applied
    obtain rfl := Except.ok.inj same
    subst self
    exact {
      ignore := by simp [patterns, ignored]
      components := .inr ⟨by simp, rfl⟩
      analyzeInnerClasses := .inr ⟨by simp, rfl⟩
      allowSelfDependency := .inl ⟨rfl, (requireBool_eq_ok_iff _ _ _).mp read⟩
      volatility := .inr ⟨fun given => given.2.1.2 (by simp), rfl⟩ }
  · obtain rfl := Except.ok.inj applied
    subst together
    exact {
      ignore := by simp [patterns, ignored]
      components := .inl ⟨rfl, (Text.splitList_eq_iff _ _).mp rfl⟩
      analyzeInnerClasses := .inr ⟨by simp, rfl⟩
      allowSelfDependency := .inr ⟨by simp, rfl⟩
      volatility := .inr ⟨fun given => given.2.1.2 (by simp), rfl⟩ }
  · have package : NamesPackage key := ⟨by simpa using ignored, by simp [inner, self, together]⟩
    split at applied
    next n read =>
      obtain rfl := Except.ok.inj applied
      exact {
        ignore := by simp [patterns, ignored]
        components := .inr ⟨together, rfl⟩
        analyzeInnerClasses := .inr ⟨inner, rfl⟩
        allowSelfDependency := .inr ⟨self, rfl⟩
        volatility := .inl ⟨n, package, (readVolatility?_eq_some_iff _ _).mp read, rfl⟩ }
    next unread =>
      obtain rfl := Except.ok.inj applied
      exact {
        ignore := by simp [patterns, ignored]
        components := .inr ⟨together, rfl⟩
        analyzeInnerClasses := .inr ⟨inner, rfl⟩
        allowSelfDependency := .inr ⟨self, rfl⟩
        volatility := by
          refine .inr ⟨?_, rfl⟩
          rintro ⟨-, -, n, spelt⟩
          simp [(readVolatility?_eq_some_iff _ _).mpr spelt] at unread }

theorem exists_apply_eq_ok_iff (config : Config) (entry : String × String) :
    (∃ after, apply config entry = .ok after) ↔ ¬ Misspelt entry := by
  obtain ⟨key, value⟩ := entry
  constructor
  · rintro ⟨after, applied⟩ misspelt
    rw [apply_of_misspelt config misspelt] at applied
    cases applied
  · intro spelt
    have read (required : key ∈ ["analyzeInnerClasses", "allowSelfDependency"]) :
        ∃ b, requireBool key value = .ok b := by
      simp only [requireBool_eq_ok_iff]
      by_contra none
      exact spelt ⟨required, not_exists.mp none⟩
    rw [apply]
    split_ifs with ignored inner self together
    · exact ⟨_, rfl⟩
    · obtain ⟨b, read⟩ := read (by simp [inner])
      exact ⟨_, by rw [read]; rfl⟩
    · obtain ⟨b, read⟩ := read (by simp [self])
      exact ⟨_, by rw [read]; rfl⟩
    · exact ⟨_, rfl⟩
    · split <;> exact ⟨_, rfl⟩

/-- A package has the volatility that the last entry for it gives. -/
theorem mem_volatility_concat {entries : List (String × String)} {entry : String × String}
    {config after : Config} (described : Describes entries config) (applied : Applies entry config after)
    (name : String) (n : Nat) :
    (name, n) ∈ after.volatility ↔
      ∃ value, IsLast (GivesVolatility name) (entries ++ [entry]) (name, value) ∧
        SpellsVolatility value n := by
  have passed (other : ¬ GivesVolatility name entry) : (name, n) ∈ config.volatility ↔
      ∃ value, IsLast (GivesVolatility name) (entries ++ [entry]) (name, value) ∧
        SpellsVolatility value n := by
    simp only [isLast_concat_of_not other, described.volatility name n]
  rcases applied.volatility with ⟨m, package, spelt, bound⟩ | ⟨other, same⟩
  · rw [bound, Text.mem_insertBinding _ _ described.ascending]
    by_cases same : entry.1 = name
    · subst same
      have given : GivesVolatility entry.1 entry := ⟨rfl, package, m, spelt⟩
      simp only [isLast_concat_of given]
      constructor
      · rintro (bound | ⟨other, -⟩)
        · obtain rfl : n = m := congrArg Prod.snd bound
          exact ⟨entry.2, rfl, spelt⟩
        · exact absurd rfl other
      · rintro ⟨value, same, spelt'⟩
        obtain rfl : value = entry.2 := congrArg Prod.snd same
        exact .inl (by rw [spelt.unique spelt'])
    · -- A binding is put in, but under another name.
      have other : ¬ GivesVolatility name entry := fun given => same given.1
      rw [← passed other]
      simp [Ne.symm same]
  · have other : ¬ GivesVolatility name entry := by
      intro given
      obtain rfl := given.1
      exact other given
    rw [same, passed other]

/-- What entries describe is described again after one more of them. -/
theorem Describes.concat {entries : List (String × String)} {entry : String × String}
    {config after : Config} (described : Describes entries config) (applied : Applies entry config after) :
    Describes (entries ++ [entry]) after where
  ignore := by
    obtain ⟨found, given, ignored⟩ := described.ignore
    rw [givePatterns_iff] at given
    refine ⟨_, (givePatterns_iff _ _).mpr rfl, ?_⟩
    rw [applied.ignore, ignored, foldl_addPattern_eraseDups, patterns_append, given]
  components := described.components.concat applied.components
  analyzeInnerClasses := described.analyzeInnerClasses.concat applied.analyzeInnerClasses
  allowSelfDependency := described.allowSelfDependency.concat applied.allowSelfDependency
  ascending := by
    rcases applied.volatility with ⟨n, -, -, bound⟩ | ⟨-, same⟩
    · rw [bound]
      exact Text.ascending_insertBinding _ _ described.ascending
    · rw [same]
      exact described.ascending
  volatility := mem_volatility_concat described applied

/-- Without entries there is nothing but the defaults. -/
theorem describes_nil : Describes [] {} where
  ignore := ⟨[], ⟨[], .nil, rfl⟩, rfl⟩
  components := .inr ⟨List.forall_mem_nil _, rfl⟩
  analyzeInnerClasses := .inr ⟨List.forall_mem_nil _, rfl⟩
  allowSelfDependency := .inr ⟨List.forall_mem_nil _, rfl⟩
  ascending := .nil
  volatility := by
    refine fun name n => iff_of_false List.not_mem_nil ?_
    rintro ⟨value, ⟨before, after, none, -⟩, -⟩
    simp at none

theorem describes_of_foldlM {seen entries : List (String × String)} {config after : Config}
    (described : Describes seen config) (read : entries.foldlM apply config = .ok after) :
    Describes (seen ++ entries) after := by
  induction entries generalizing seen config with
  | nil =>
    obtain rfl := Except.ok.inj read
    rwa [List.append_nil]
  | cons entry rest ih =>
    rw [List.foldlM_cons, bind_eq_ok_iff] at read
    obtain ⟨middle, applied, read⟩ := read
    rw [← List.singleton_append, ← List.append_assoc]
    exact ih (described.concat (applies_of_apply applied)) read

/-- Entries describe one configuration. -/
theorem Describes.unique {entries : List (String × String)} {one other : Config}
    (described : Describes entries one) (described' : Describes entries other) : one = other := by
  have spelt (value : String) (one other : Bool) : SpellsBool value one → SpellsBool value other →
    one = other := SpellsBool.unique
  have ignore : one.ignore = other.ignore := by
    obtain ⟨found, given, ignored⟩ := described.ignore
    obtain ⟨found', given', ignored'⟩ := described'.ignore
    rw [givePatterns_iff] at given given'
    rw [ignored, ignored', ← given, ← given']
  have components : one.components = other.components := by
    refine described.components.unique (fun value list list' items items' => ?_) described'.components
    rw [← Text.splitList_eq_iff] at items items'
    exact items.symm.trans items'
  have inner := described.analyzeInnerClasses.unique spelt described'.analyzeInnerClasses
  have self := described.allowSelfDependency.unique spelt described'.allowSelfDependency
  have volatility : one.volatility = other.volatility :=
    described.ascending.eq described'.ascending fun (name, n) =>
      (described.volatility name n).trans (described'.volatility name n).symm
  cases one
  cases other
  simp_all

/-- What comes of reading entries. -/
inductive Outcome (entries : List (String × String)) : Except ConfigError Config → Prop
  | refused {before key value after} :
      entries = before ++ (key, value) :: after → (∀ entry ∈ before, ¬ Misspelt entry) →
      Misspelt (key, value) → Outcome entries (.error (.invalidValue key value))
  | read {config} :
      (∀ entry ∈ entries, ¬ Misspelt entry) → Describes entries config → Outcome entries (.ok config)

/-- Entries are read to their end unless one of them is misspelt. -/
theorem exists_foldlM_apply {entries : List (String × String)}
    (spelt : ∀ entry ∈ entries, ¬ Misspelt entry) :
    ∃ config, entries.foldlM apply {} = .ok config ∧ Describes entries config := by
  obtain ⟨config, read⟩ := (exists_foldlM_eq_ok_iff (¬ Misspelt ·)
    (fun entry _ config => exists_apply_eq_ok_iff config entry) {}).mpr spelt
  exact ⟨config, read, describes_of_foldlM describes_nil read⟩

theorem foldlM_apply_of_outcome {entries : List (String × String)} {result : Except ConfigError Config}
    (outcome : Outcome entries result) : entries.foldlM apply {} = result := by
  cases outcome with
  | @refused before key value after split spelt misspelt =>
    obtain ⟨config, read, -⟩ := exists_foldlM_apply spelt
    rw [split, List.foldlM_append, read]
    -- What stands behind the misspelt entry is not reached.
    change ((key, value) :: after).foldlM apply config = _
    rw [List.foldlM_cons, apply_of_misspelt config misspelt]
    rfl
  | read spelt described =>
    obtain ⟨config, read, described'⟩ := exists_foldlM_apply spelt
    rw [read, described'.unique described]

open Classical in
theorem exists_outcome (entries : List (String × String)) : ∃ result, Outcome entries result := by
  cases first : entries.find? (Misspelt ·) with
  | none =>
    have spelt : ∀ entry ∈ entries, ¬ Misspelt entry := by simpa using first
    obtain ⟨config, -, described⟩ := exists_foldlM_apply spelt
    exact ⟨_, .read spelt described⟩
  | some entry =>
    simp only [List.find?_eq_some_iff_append, decide_eq_true_eq, Bool.not_eq_true',
      decide_eq_false_iff_not] at first
    obtain ⟨misspelt, before, after, split, spelt⟩ := first
    exact ⟨_, .refused split spelt misspelt⟩

/-- A text is read as its entries say, or refused for the first that should give a boolean and does not. -/
theorem ofProperties_eq_iff (text : String) (result : Except ConfigError Config) :
    ofProperties text = result ↔ ∃ entries, HasEntries text entries ∧ Outcome entries result := by
  simp only [← entries_eq_iff, exists_eq_left', ofProperties]
  constructor
  · rintro rfl
    obtain ⟨result, outcome⟩ := exists_outcome (entries text)
    rwa [foldlM_apply_of_outcome outcome]
  · exact foldlM_apply_of_outcome

-- The later line for `a.b` gives no number, so it changes nothing.
example : ofProperties "a.b=1\na.b = never\n# a.b=2\nignore.x=p, q\nignored:q,,r" =
    .ok { ignore := ["p", "q", "r"], volatility := [("a.b", 1)] } := by
  decide +kernel

end PackageAudit.Config
