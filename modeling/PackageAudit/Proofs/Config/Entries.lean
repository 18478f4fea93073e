import PackageAudit.Config
import PackageAudit.Proofs.Text.Blank
import PackageAudit.Proofs.Text.Search
/-!
The entries that a text holds, and the values that can be read from them.

What a line holds is said by the characters around its first `=` or `:`, and what a value stands for by the
words and digits that spell it. Reading is then recognition: it finds something exactly where there is
something to find, and nothing else.
-/

namespace PackageAudit.Config

/-- A trimmed line, unless it is a comment, has its key before the first `=` or `:` and its value behind. -/
def HoldsEntry (line : List Char) (entry : String × String) : Prop :=
  ∃ before mark after, Text.trimEnd (Text.trimStart line) = before ++ mark :: after ∧
    mark ∈ ['=', ':'] ∧ '=' ∉ before ∧ ':' ∉ before ∧
    (Text.trimEnd (Text.trimStart line)).head? ∉ [some '#', some '!'] ∧
    entry = (Text.trim (String.ofList before), Text.trim (String.ofList after))

theorem keyValue?_eq_some_iff (line : List Char) (entry : String × String) :
    keyValue? line = some entry ↔ HoldsEntry line entry := by
  rw [keyValue?, HoldsEntry]
  generalize Text.trimEnd (Text.trimStart line) = trimmed
  cases trimmed with
  | nil => simp
  | cons first rest =>
    simp only [Bool.or_eq_true, decide_eq_true_eq]
    split
    next comment =>
      constructor
      · nofun
      · rintro ⟨-, -, -, -, -, -, -, solid, -⟩
        simp [comment] at solid
    next solid =>
      -- That the mark is the first one says that neither of the two stands before it.
      simp only [Option.map_eq_some_iff, Prod.exists, Text.splitAtFirst?_eq_some_iff]
      constructor
      · rintro ⟨before, after, ⟨mark, marked, split, others⟩, rfl⟩
        refine ⟨before, mark, after, split, by simpa using marked, ?_, ?_, by simpa using solid, rfl⟩
        · exact fun member => by simpa using others _ member
        · exact fun member => by simpa using others _ member
      · rintro ⟨before, mark, after, split, marked, noEquals, noColon, -, rfl⟩
        refine ⟨before, after, ⟨mark, by simpa using marked, split, ?_⟩, rfl⟩
        intro c member
        have notEquals : c ≠ '=' := fun same => noEquals (same ▸ member)
        have notColon : c ≠ ':' := fun same => noColon (same ▸ member)
        simp [notEquals, notColon]

/-- The entries of lines, in order; a line that holds none is passed over. -/
inductive LinesHold : List (List Char) → List (String × String) → Prop
  | nil : LinesHold [] []
  | entry {line lines entry entries} :
      HoldsEntry line entry → LinesHold lines entries → LinesHold (line :: lines) (entry :: entries)
  | passed {line lines entries} :
      (∀ entry, ¬ HoldsEntry line entry) → LinesHold lines entries → LinesHold (line :: lines) entries

theorem filterMap_keyValue?_eq_iff (lines : List (List Char)) (found : List (String × String)) :
    lines.filterMap keyValue? = found ↔ LinesHold lines found := by
  constructor
  · rintro rfl
    induction lines with
    | nil => exact .nil
    | cons line lines ih =>
      rw [List.filterMap_cons]
      split
      next none =>
        exact .passed (fun entry held => by simp [(keyValue?_eq_some_iff _ _).mpr held] at none) ih
      next entry some => exact .entry ((keyValue?_eq_some_iff _ _).mp some) ih
  · intro held
    induction held with
    | nil => rfl
    | entry held _ ih => rw [List.filterMap_cons_some ((keyValue?_eq_some_iff _ _).mpr held), ih]
    | @passed line _ _ empty _ ih =>
      have unread : keyValue? line = none := by
        rw [Option.eq_none_iff_forall_ne_some]
        exact fun entry read => empty entry ((keyValue?_eq_some_iff _ _).mp read)
      rw [List.filterMap_cons_none unread, ih]

/-- The entries of a text are those of its lines. -/
def HasEntries (text : String) (found : List (String × String)) : Prop :=
  ∃ lines, Text.IsCut '\n' text.toList lines ∧ LinesHold lines found

theorem entries_eq_iff (text : String) (found : List (String × String)) :
    entries text = found ↔ HasEntries text found := by
  rw [entries, filterMap_keyValue?_eq_iff]
  constructor
  · exact fun held => ⟨_, (Text.pieces_eq_iff _ _ _).mp rfl, held⟩
  · rintro ⟨lines, cut, held⟩
    rwa [(Text.pieces_eq_iff _ _ _).mpr cut]

/-- The words that stand for a boolean. -/
def boolWords : Bool → List String
  | true => ["true", "yes", "1"]
  | false => ["false", "no", "0"]

/-- A value is one of the words for a boolean, in letters of either case. -/
def SpellsBool (value : String) (b : Bool) : Prop :=
  String.ofList (value.toList.map Char.toLower) ∈ boolWords b

theorem readBool?_eq_some_iff (value : String) (b : Bool) :
    readBool? value = some b ↔ SpellsBool value b := by
  rw [readBool?, SpellsBool]
  generalize String.ofList (value.toList.map Char.toLower) = word
  have disjoint : ∀ word ∈ boolWords false, word ∉ boolWords true := by decide
  change (if word ∈ boolWords true then some true
    else if word ∈ boolWords false then some false else none) = some b ↔ _
  cases b with
  | true => split_ifs with yes no <;> simp [yes]
  | false =>
    split_ifs with yes no
    · simpa using fun no => disjoint word no yes
    · simp [no]
    · simp [no]

theorem SpellsBool.unique {value : String} {one other : Bool} (spelt : SpellsBool value one)
    (spelt' : SpellsBool value other) : one = other := by
  rw [← readBool?_eq_some_iff] at spelt spelt'
  exact Option.some.inj (spelt.symm.trans spelt')

/-- A value is decimal digits, behind a plus sign or not, for a number below 2³². -/
def SpellsVolatility (value : String) (n : Nat) : Prop :=
  ∃ digits : List Char, digits ≠ [] ∧ (∀ c ∈ digits, c.isDigit = true) ∧
    value.toList ∈ [digits, '+' :: digits] ∧ Nat.ofDigitChars 10 digits 0 = n ∧ n < UInt32.size

/-- What follows a plus sign, or everything. -/
def unsigned : List Char → List Char
  | '+' :: digits => digits
  | cs => cs

/-- A sign is no digit, so it is never among those that are read. -/
theorem unsigned_eq_iff {digits : List Char} (digital : ∀ c ∈ digits, c.isDigit = true)
    (cs : List Char) : unsigned cs = digits ↔ cs ∈ [digits, '+' :: digits] := by
  rw [List.mem_pair]
  unfold unsigned
  split
  next rest =>
    have noDigits : '+' :: rest ≠ digits := by
      rintro rfl
      exact absurd (digital '+' List.mem_cons_self) (by decide)
    rw [or_iff_right noDigits, List.cons.injEq, and_iff_right rfl]
  next noSign => exact (or_iff_left (noSign digits)).symm

theorem readVolatility?_eq (value : String) :
    readVolatility? value =
      if (unsigned value.toList).isEmpty || (unsigned value.toList).any (! ·.isDigit) then none
      else if Nat.ofDigitChars 10 (unsigned value.toList) 0 < UInt32.size then
        some (Nat.ofDigitChars 10 (unsigned value.toList) 0)
      else none := by
  simp only [Nat.ofDigitChars_eq_foldl, Nat.mul_comm 10]
  rfl

theorem readVolatility?_eq_some_iff (value : String) (n : Nat) :
    readVolatility? value = some n ↔ SpellsVolatility value n := by
  have digital : ¬ ((unsigned value.toList).isEmpty || (unsigned value.toList).any (! ·.isDigit)) = true ↔
      unsigned value.toList ≠ [] ∧ ∀ c ∈ unsigned value.toList, c.isDigit = true := by
    simp
  rw [readVolatility?_eq, Option.ite_none_left_eq_some, digital, Option.ite_none_right_eq_some,
    Option.some.injEq, SpellsVolatility]
  constructor
  · rintro ⟨⟨some, digital⟩, below, rfl⟩
    exact ⟨_, some, digital, (unsigned_eq_iff digital _).mp rfl, rfl, below⟩
  · rintro ⟨digits, some, digital, signed, rfl, below⟩
    rw [(unsigned_eq_iff digital _).mpr signed]
    exact ⟨⟨some, digital⟩, below, rfl⟩

theorem SpellsVolatility.unique {value : String} {one other : Nat} (spelt : SpellsVolatility value one)
    (spelt' : SpellsVolatility value other) : one = other := by
  rw [← readVolatility?_eq_some_iff] at spelt spelt'
  exact Option.some.inj (spelt.symm.trans spelt')

end PackageAudit.Config
