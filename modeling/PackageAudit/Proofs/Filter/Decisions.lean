import Mathlib.Data.List.Nodup
import PackageAudit.Filter
import PackageAudit.Proofs.Text.Blank
import PackageAudit.Proofs.Text.Search
/-!
What a filter decides.

A filter leaves out a pattern that it holds already, also where the new rule would decide otherwise. That
goes unnoticed: the earlier rule matches the same names and is asked first, so the later one would never
have been reached. Every decision is therefore the one that all the patterns would give that calls asked
for, in the order of the calls and with all repetitions.
-/

namespace PackageAudit

/-! ### Patterns -/

/-- A pattern with a final star matches whatever begins with the text before it, any other pattern a
package and its sub-packages. -/
inductive FilterRule.Matches : String → String → Prop where
  | beginning (start rest : String) : Matches (start.push '*') (start ++ rest)
  | package {pattern : String} (plain : ∀ start : String, pattern ≠ start.push '*') : Matches pattern pattern
  | subpackage {pattern : String} (plain : ∀ start : String, pattern ≠ start.push '*') (rest : String) :
      Matches pattern (pattern ++ "." ++ rest)

theorem FilterRule.patternMatches_iff (pattern package : String) :
    patternMatches pattern package = true ↔ Matches pattern package := by
  cases last : Text.withoutLast? '*' pattern with
  | some start =>
    obtain rfl := (Text.withoutLast?_eq_some_iff _ _ _).mp last
    simp only [patternMatches, last, Text.startsWith_iff]
    constructor
    · rintro ⟨rest, rfl⟩
      exact .beginning start rest
    · intro matched
      generalize starred : start.push '*' = pattern at matched
      cases matched with
      | beginning other rest =>
        obtain ⟨rfl, -⟩ := String.push_inj.mp starred
        exact ⟨rest, rfl⟩
      | package plain => exact absurd starred.symm (plain start)
      | subpackage plain rest => exact absurd starred.symm (plain start)
  | none =>
    have plain := (Text.withoutLast?_eq_none_iff _ _).mp last
    have begins : patternMatches pattern package = true ↔ ∃ rest,
        package.toList = pattern.toList ++ rest ∧ (rest = [] ∨ rest.head? = some '.') := by
      simp only [patternMatches, last, ← Text.after?_eq_some_iff]
      cases Text.after? pattern.toList package.toList <;> simp
    rw [begins]
    constructor
    · rintro ⟨rest, whole, rfl | dotted⟩
      · obtain rfl : package = pattern := by simpa [← String.toList_inj] using whole
        exact .package plain
      · obtain ⟨more, rfl⟩ := List.head?_eq_some_iff.mp dotted
        obtain rfl : package = pattern ++ "." ++ String.ofList more := by
          simp [← String.toList_inj, whole]
        exact .subpackage plain _
    · rintro (⟨start, rest⟩ | _ | ⟨_, rest⟩)
      · exact absurd rfl (plain start)
      · exact ⟨[], by simp, .inl rfl⟩
      · exact ⟨'.' :: rest.toList, by simp, .inr rfl⟩

namespace PackageFilter

/-! ### Rules with repetitions -/

/-- How rules decide about a name: as the first one whose pattern matches it, and in its favour if none
does. -/
inductive Decides (rules : List FilterRule) (name : String) : Bool → Prop where
  | matched (before : List FilterRule) (rule : FilterRule) (after : List FilterRule)
      (split : rules = before ++ rule :: after)
      (passed : ∀ earlier ∈ before, ¬FilterRule.Matches earlier.pattern name)
      (here : FilterRule.Matches rule.pattern name) : Decides rules name rule.accepts
  | unmatched (none : ∀ rule ∈ rules, ¬FilterRule.Matches rule.pattern name) : Decides rules name true

theorem decides_iff (rules : List FilterRule) (name : String) (verdict : Bool) :
    Decides rules name verdict ↔ accept ⟨rules⟩ name = verdict := by
  have covers (rule : FilterRule) : rule.covers name = true ↔ FilterRule.Matches rule.pattern name :=
    FilterRule.patternMatches_iff rule.pattern name
  simp only [accept]
  constructor
  · rintro (⟨before, rule, after, rfl, passed, here⟩ | unmatched)
    · have first : (before ++ rule :: after).find? (·.covers name) = some rule := by
        simp only [List.find?_eq_some_iff_append, Bool.not_eq_true', ← Bool.not_eq_true, covers]
        exact ⟨here, before, after, rfl, passed⟩
      rw [first]
    · have first : rules.find? (·.covers name) = none := by
        simpa only [List.find?_eq_none, covers] using unmatched
      rw [first]
  · rintro rfl
    cases first : rules.find? (·.covers name) with
    | some rule =>
      simp only [List.find?_eq_some_iff_append, Bool.not_eq_true', ← Bool.not_eq_true, covers] at first
      obtain ⟨here, before, after, split, passed⟩ := first
      exact .matched before rule after split passed here
    | none => exact .unmatched (by simpa only [List.find?_eq_none, covers] using first)

/-- Whatever the name, the same rule is the first to cover it. -/
def DecideAlike (rules others : List FilterRule) : Prop :=
  ∀ name, rules.find? (·.covers name) = others.find? (·.covers name)

theorem DecideAlike.symm {rules others : List FilterRule} (alike : DecideAlike rules others) :
    DecideAlike others rules := fun name => (alike name).symm

theorem DecideAlike.trans {rules others more : List FilterRule} (first : DecideAlike rules others)
    (second : DecideAlike others more) : DecideAlike rules more :=
  fun name => (first name).trans (second name)

theorem DecideAlike.append {rules others : List FilterRule} (alike : DecideAlike rules others)
    (after : List FilterRule) : DecideAlike (rules ++ after) (others ++ after) := by
  intro name
  rw [List.find?_append, List.find?_append, alike name]

/-- A rule for a pattern that an earlier rule has is never the first to cover a name. -/
theorem decideAlike_of_repeated {before : List FilterRule} {rule : FilterRule}
    (known : ∃ earlier ∈ before, earlier.pattern = rule.pattern) (after : List FilterRule) :
    DecideAlike (before ++ rule :: after) (before ++ after) := by
  intro name
  rw [List.find?_append, List.find?_append]
  cases first : before.find? (·.covers name) with
  | some earlier => rfl
  | none =>
    obtain ⟨earlier, member, same⟩ := known
    have passed : ¬rule.covers name = true := by
      rw [FilterRule.covers, ← same]
      exact List.find?_eq_none.mp first earlier member
    simp only [List.find?_cons, Bool.eq_false_iff.mpr passed]

theorem DecideAlike.decides_iff {rules others : List FilterRule} (alike : DecideAlike rules others)
    (name : String) (verdict : Bool) : Decides rules name verdict ↔ Decides others name verdict := by
  rw [PackageFilter.decides_iff, PackageFilter.decides_iff, accept, accept, alike name]

/-! ### Calls -/

/-- A call that adds rules to a filter. -/
inductive FilterCall where
  | excluding (patterns : List String)
  | including (patterns : List String)

/-- The rules for some patterns, of which the blank ones count for nothing. -/
def requestedRules (accepts : Bool) (patterns : List String) : List FilterRule :=
  ((patterns.map Text.trim).filter (· ≠ "")).map (⟨·, accepts⟩)

namespace FilterCall

def apply (filter : PackageFilter) : FilterCall → PackageFilter
  | .excluding patterns => filter.excluding patterns
  | .including patterns => filter.including patterns

/-- The rules that a call asks for, whether or not there are such rules already. -/
def requested : FilterCall → List FilterRule
  | .excluding patterns => requestedRules false patterns
  | .including patterns => requestedRules true patterns

end FilterCall

def ofCalls (calls : List FilterCall) : PackageFilter := calls.foldl FilterCall.apply all

theorem requestedRules_cons (accepts : Bool) (pattern : String) (rest : List String) :
    requestedRules accepts (pattern :: rest) =
      (if Text.trim pattern = "" then [] else [⟨Text.trim pattern, accepts⟩]) ++
        requestedRules accepts rest := by
  by_cases blank : Text.trim pattern = "" <;> simp [requestedRules, blank]

theorem rules_add (accepts : Bool) (filter : PackageFilter) (pattern : String) :
    (filter.add accepts pattern).rules = filter.rules ++
      if Text.trim pattern = "" ∨ ∃ earlier ∈ filter.rules, earlier.pattern = Text.trim pattern then []
      else [⟨Text.trim pattern, accepts⟩] := by
  have known : (Text.trim pattern).isEmpty || filter.rules.any (·.pattern == Text.trim pattern) ↔
      Text.trim pattern = "" ∨ ∃ earlier ∈ filter.rules, earlier.pattern = Text.trim pattern := by
    simp
  simp only [add, known]
  split <;> simp

/-- By induction on the patterns. -/
theorem foldl_add_decideAlike (accepts : Bool) (patterns : List String) (filter : PackageFilter) :
    DecideAlike (patterns.foldl (add accepts) filter).rules
      (filter.rules ++ requestedRules accepts patterns) := by
  induction patterns generalizing filter with
  | nil => simp [requestedRules, DecideAlike]
  | cons pattern rest ih =>
    rw [List.foldl_cons]
    refine (ih (filter.add accepts pattern)).trans ?_
    rw [rules_add, requestedRules_cons, ← List.append_assoc]
    by_cases blank : Text.trim pattern = ""
    · simp [blank, DecideAlike]
    by_cases known : ∃ earlier ∈ filter.rules, earlier.pattern = Text.trim pattern
    · have repeated : DecideAlike
          (filter.rules ++ ⟨Text.trim pattern, accepts⟩ :: requestedRules accepts rest) _ :=
        decideAlike_of_repeated known _
      simpa [blank, known] using repeated.symm
    · simp [blank, known, DecideAlike]

theorem apply_decideAlike (filter : PackageFilter) (call : FilterCall) :
    DecideAlike (call.apply filter).rules (filter.rules ++ call.requested) := by
  cases call with
  | excluding patterns => exact foldl_add_decideAlike false patterns filter
  | including patterns => exact foldl_add_decideAlike true patterns filter

theorem foldl_apply_decideAlike (calls : List FilterCall) (filter : PackageFilter) :
    DecideAlike (calls.foldl FilterCall.apply filter).rules
      (filter.rules ++ calls.flatMap FilterCall.requested) := by
  induction calls generalizing filter with
  | nil => simp [DecideAlike]
  | cons call rest ih =>
    rw [List.foldl_cons]
    refine (ih (call.apply filter)).trans ?_
    rw [List.flatMap_cons, ← List.append_assoc]
    exact (apply_decideAlike filter call).append _

/-! ### The rules that are held -/

/-- No pattern is blank, and none is held twice. -/
structure Tidy (filter : PackageFilter) : Prop where
  trimmed : ∀ rule ∈ filter.rules, Text.trim rule.pattern = rule.pattern ∧ rule.pattern ≠ ""
  distinct : (filter.rules.map (·.pattern)).Nodup

theorem Tidy.add {filter : PackageFilter} (tidy : filter.Tidy) (accepts : Bool) (pattern : String) :
    (filter.add accepts pattern).Tidy := by
  by_cases left : Text.trim pattern = "" ∨ ∃ earlier ∈ filter.rules, earlier.pattern = Text.trim pattern
  · have same : (filter.add accepts pattern).rules = filter.rules := by
      rw [rules_add, if_pos left, List.append_nil]
    constructor
    · rw [same]
      exact tidy.trimmed
    · rw [same]
      exact tidy.distinct
  · have added : (filter.add accepts pattern).rules =
        filter.rules ++ [⟨Text.trim pattern, accepts⟩] := by
      rw [rules_add, if_neg left]
    obtain ⟨solid, fresh⟩ := not_or.mp left
    constructor
    · rw [added, List.forall_mem_append]
      exact ⟨tidy.trimmed, by simp [Text.trim_trim, solid]⟩
    · rw [added, List.map_append, List.map_singleton]
      exact List.concat_eq_append ▸ tidy.distinct.concat (by simpa using fresh)

theorem Tidy.apply {filter : PackageFilter} (tidy : filter.Tidy) (call : FilterCall) :
    (call.apply filter).Tidy := by
  cases call with
  | excluding patterns => exact List.foldlRecOn patterns _ tidy fun _ held _ _ => held.add _ _
  | including patterns => exact List.foldlRecOn patterns _ tidy fun _ held _ _ => held.add _ _

theorem ofCalls_tidy (calls : List FilterCall) : (ofCalls calls).Tidy :=
  List.foldlRecOn calls _ ⟨nofun, List.nodup_nil⟩ fun _ tidy call _ => tidy.apply call

/-- Whatever patterns calls bring in whatever order, a filter decides about a name as the first of them all
that matches it. So a pattern that comes again can be dropped, also where it would decide otherwise, and the
filter holds none that is blank or comes again. -/
theorem ofCalls_decides (calls : List FilterCall) :
    let filter := ofCalls calls
    let asked := calls.flatMap FilterCall.requested
    (∀ name verdict, filter.accept name = verdict ↔ Decides asked name verdict) ∧
    (∀ before rule after, asked = before ++ rule :: after →
      (∃ earlier ∈ before, earlier.pattern = rule.pattern) →
        ∀ name verdict, filter.accept name = verdict ↔ Decides (before ++ after) name verdict) ∧
    (∀ rule ∈ filter.rules, Text.trim rule.pattern = rule.pattern ∧ rule.pattern ≠ "") ∧
    (filter.rules.map (·.pattern)).Nodup := by
  intro filter asked
  have alike : DecideAlike filter.rules asked := foldl_apply_decideAlike calls all
  have decides (name : String) (verdict : Bool) :
      filter.accept name = verdict ↔ Decides asked name verdict :=
    (decides_iff filter.rules name verdict).symm.trans (alike.decides_iff name verdict)
  have tidy := ofCalls_tidy calls
  refine ⟨decides, ?_, tidy.trimmed, tidy.distinct⟩
  intro before rule after split known name verdict
  rw [decides, split]
  exact (decideAlike_of_repeated known after).decides_iff name verdict

/-- The second rule for `a.b` would accept what the first one rejects, and blanks around a pattern do not
make it another one. -/
theorem ofCalls_decides_repeated :
    let calls : List FilterCall := [.excluding [" a.b ", "java*"], .including ["a.b", " ", "a"]]
    let before : List FilterRule := [⟨"a.b", false⟩, ⟨"java*", false⟩]
    calls.flatMap FilterCall.requested = before ++ ⟨"a.b", true⟩ :: [⟨"a", true⟩] ∧
      Decides (before ++ ⟨"a.b", true⟩ :: [⟨"a", true⟩]) "a.b.c" false ∧
      Decides (before ++ [⟨"a", true⟩]) "a.b.c" false := by
  intro calls before
  have asked : calls.flatMap FilterCall.requested = before ++ ⟨"a.b", true⟩ :: [⟨"a", true⟩] := by
    decide +kernel
  have rejected : (ofCalls calls).accept "a.b.c" = false := by decide +kernel
  obtain ⟨decides, dropped, -, -⟩ := ofCalls_decides calls
  refine ⟨asked, ?_, ?_⟩
  · rw [← asked]
    exact (decides _ _).mp rejected
  · exact (dropped before _ _ asked ⟨_, .head _, rfl⟩ _ _).mp rejected

end PackageFilter

end PackageAudit
