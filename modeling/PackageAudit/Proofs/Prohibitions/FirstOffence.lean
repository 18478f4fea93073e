import Mathlib.Data.Prod.Lex
import PackageAudit.Proofs.Graph.ByName
import PackageAudit.Proofs.Prohibitions.Enforcement
/-!
Which offence is found.

The packages are gone through in order, for each the patterns of its rule, and for each of these the
dependencies of the package, up to the first that is forbidden. A search that finds what stands at the least
place can be made the inner step of another such search, and together they find what stands at the least pair
of places in lexicographic order. So the offence that is found is the least by package, pattern and
dependency.
-/

namespace PackageAudit

/-! ### Searches -/

/-- Finds what stands at the least place, or nothing if nothing stands anywhere. -/
inductive FindsFirst {ι β : Type} [LE ι] (stands : ι → β → Prop) : Option β → Prop where
  | found (place : ι) (value : β) (here : stands place value)
      (least : ∀ other another, stands other another → place ≤ other) : FindsFirst stands (some value)
  | nothing (nowhere : ∀ place value, ¬stands place value) : FindsFirst stands none

namespace FindsFirst

variable {ι α β γ : Type}

section Searches

variable [LE ι] {stands others : ι → β → Prop} {found : Option β}

theorem not_stands (search : FindsFirst stands none) (place : ι) (value : β) :
    ¬stands place value := by
  cases search with
  | nothing nowhere => exact nowhere place value

theorem congr (search : FindsFirst stands found)
    (same : ∀ place value, stands place value ↔ others place value) : FindsFirst others found := by
  obtain rfl : stands = others := funext₂ fun place value => propext (same place value)
  exact search

protected theorem map (search : FindsFirst stands found) (change : β → γ) :
    FindsFirst (fun place value => ∃ inner, stands place inner ∧ change inner = value)
      (found.map change) := by
  cases search with
  | found place value here least =>
    refine .found place (change value) ⟨value, here, rfl⟩ ?_
    rintro other _ ⟨another, there, rfl⟩
    exact least other another there
  | nothing nowhere =>
    refine .nothing ?_
    rintro place _ ⟨value, here, rfl⟩
    exact nowhere place value here

/-- A search with what was chosen before, if anything was. -/
protected theorem bind {chosen : Option α} {search : α → Option β} {stands : α → ι → β → Prop}
    (each : ∀ item, FindsFirst (stands item) (search item)) :
    FindsFirst (fun place value => ∃ item, chosen = some item ∧ stands item place value)
      (chosen.bind search) := by
  cases chosen with
  | none => exact .nothing (by simp)
  | some item => exact (each item).congr (by simp)

theorem find? (items : List α) (wanted : α → Bool) :
    FindsFirst (fun (place : Nat) item => items[place]? = some item ∧ wanted item = true)
      (items.find? wanted) := by
  cases search : items.find? wanted with
  | some item =>
    obtain ⟨here, place, inRange, rfl, passed⟩ := List.find?_eq_some_iff_getElem.mp search
    refine .found place _ ⟨List.getElem?_eq_getElem inRange, here⟩ ?_
    rintro other another ⟨there, alsoWanted⟩
    obtain ⟨otherInRange, rfl⟩ := List.getElem?_eq_some_iff.mp there
    by_contra earlier
    exact absurd alsoWanted (by simpa using passed other (Nat.lt_of_not_le earlier))
  | none =>
    refine .nothing ?_
    rintro place item ⟨here, isWanted⟩
    exact List.find?_eq_none.mp search item (List.mem_of_getElem? here) isWanted

/-- A search with each item in turn, up to the first that finds something. -/
theorem findSome? (items : List α) {search : α → Option β} {stands : α → ι → β → Prop}
    (each : ∀ item, FindsFirst (stands item) (search item)) :
    FindsFirst (fun (place : Nat ×ₗ ι) value =>
        ∃ item, items[(ofLex place).1]? = some item ∧ stands item (ofLex place).2 value)
      (items.findSome? search) := by
  have barren {item : α} (silent : search item = none) := (silent ▸ each item).not_stands
  cases searched : items.findSome? search with
  | none =>
    refine .nothing ?_
    rintro place value ⟨item, present, here⟩
    have silent := List.findSome?_eq_none_iff.mp searched item (List.mem_of_getElem? present)
    exact barren silent _ value here
  | some value =>
    obtain ⟨earlier, item, later, rfl, foundHere, silent⟩ := List.findSome?_eq_some_iff.mp searched
    have inner := each item
    rw [foundHere] at inner
    cases inner with
    | found place _ here least =>
      refine .found (toLex (earlier.length, place)) value ⟨item, by simp, here⟩ ?_
      rintro other another ⟨owner, present, there⟩
      rw [Prod.Lex.le_iff]
      -- Items before this one find nothing, and those behind it come later.
      rcases Nat.lt_trichotomy earlier.length (ofLex other).1 with behind | same | ahead
      · exact .inl behind
      · rw [← same] at present
        obtain rfl : item = owner := by simpa using present
        exact .inr ⟨same, least _ another there⟩
      · rw [List.getElem?_append_left ahead] at present
        exact absurd there (barren (silent owner (List.mem_of_getElem? present)) _ another)

end Searches

/-- What is found is known by its place, where no two things stand at one place. -/
theorem eq_some_iff [PartialOrder ι] {stands : ι → β → Prop} {found : Option β}
    (search : FindsFirst stands found)
    (alone : ∀ {place value another}, stands place value → stands place another → value = another)
    (value : β) : found = some value ↔
      ∃ place, stands place value ∧ ∀ other another, stands other another → place ≤ other := by
  cases search with
  | found place first here least =>
    constructor
    · rintro ⟨⟩
      exact ⟨place, here, least⟩
    · rintro ⟨other, there, alsoLeast⟩
      obtain rfl := le_antisymm (least other value there) (alsoLeast place first here)
      rw [alone here there]
  | nothing nowhere =>
    refine ⟨nofun, ?_⟩
    rintro ⟨place, here, -⟩
    exact absurd here (nowhere place value)

end FindsFirst

/-! ### Offences -/

theorem PackageGraph.indices_getElem?_eq_some_iff (graph : PackageGraph) (place index : Nat) :
    graph.indices[place]? = some index ↔ place < graph.size ∧ index = place := by
  rw [indices, List.getElem?_eq_some_iff]
  simp [eq_comm]

namespace Prohibitions

/-- A pattern with a final star is met by whatever begins with the text before it, any other by itself. -/
inductive Meets : String → String → Prop where
  | beginning (start rest : String) : Meets (start.push '*') (start ++ rest)
  | itself {pattern : String} (plain : ∀ start : String, pattern ≠ start.push '*') : Meets pattern pattern

theorem patternMatches_iff (pattern efferent : String) :
    patternMatches pattern efferent = true ↔ Meets pattern efferent := by
  unfold patternMatches
  cases last : Text.withoutLast? '*' pattern with
  | some start =>
    obtain rfl := (Text.withoutLast?_eq_some_iff _ _ _).mp last
    simp only [Text.startsWith_iff]
    constructor
    · rintro ⟨rest, rfl⟩
      exact .beginning start rest
    · intro met
      generalize starred : start.push '*' = pattern at met
      cases met with
      | beginning other rest =>
        obtain ⟨rfl, -⟩ := String.push_inj.mp starred
        exact ⟨rest, rfl⟩
      | itself plain => exact absurd starred.symm (plain start)
  | none =>
    have plain := (Text.withoutLast?_eq_none_iff _ _).mp last
    simp only [beq_iff_eq]
    constructor
    · rintro rfl
      exact .itself plain
    · rintro (⟨start, rest⟩ | _)
      · exact absurd rfl (plain start)
      · rfl

/-- The rule for a package is the first whose owner contains its name. Of a package, a pattern of the rule
for it and a dependency of the package, each by its number, the dependency meets the pattern. -/
structure OffendsAt (prohibitions : Prohibitions) (graph : PackageGraph)
    (package pattern efferent : Nat) (offence : ForbiddenDependency) : Prop where
  isPackage : graph.packageNames[package]? = some offence.package
  isEfferent : (graph.efferentNames package)[efferent]? = some offence.efferent
  isForbidden : ∃ before rule after, prohibitions.rules = before ++ rule :: after ∧
    offence.package.toList <:+: rule.package.toList ∧
    (∀ earlier ∈ before, ¬offence.package.toList <:+: earlier.package.toList) ∧
    ∃ forbidden, rule.forbidden[pattern]? = some forbidden ∧ Meets forbidden offence.efferent

theorem OffendsAt.eq {prohibitions : Prohibitions} {graph : PackageGraph}
    {package pattern efferent : Nat} {one other : ForbiddenDependency}
    (first : prohibitions.OffendsAt graph package pattern efferent one)
    (second : prohibitions.OffendsAt graph package pattern efferent other) : one = other := by
  have package := first.isPackage.symm.trans second.isPackage
  have efferent := first.isEfferent.symm.trans second.isEfferent
  cases one
  cases other
  cases package
  cases efferent
  rfl

theorem firstForbidden?_findsFirst (owner : String) (efferents patterns : List String) :
    FindsFirst (fun (place : Nat ×ₗ Nat) offence => offence.package = owner ∧
        efferents[(ofLex place).2]? = some offence.efferent ∧
        ∃ forbidden, patterns[(ofLex place).1]? = some forbidden ∧ Meets forbidden offence.efferent)
      (firstForbidden? owner efferents patterns) := by
  have search := FindsFirst.findSome? patterns fun pattern =>
    FindsFirst.find? efferents (patternMatches pattern)
  refine (search.map _).congr fun place offence => ?_
  simp only [patternMatches_iff]
  constructor
  · rintro ⟨efferent, ⟨pattern, here, present, met⟩, rfl⟩
    exact ⟨rfl, present, pattern, here, met⟩
  · rintro ⟨rfl, present, pattern, here, met⟩
    exact ⟨offence.efferent, ⟨pattern, here, present, met⟩, rfl⟩

theorem firstOffence?_findsFirst (prohibitions : Prohibitions) (graph : PackageGraph) :
    FindsFirst (fun place : Nat ×ₗ Nat ×ₗ Nat => prohibitions.OffendsAt graph (ofLex place).1
        (ofLex (ofLex place).2).1 (ofLex (ofLex place).2).2)
      (prohibitions.firstOffence? graph) := by
  have each (index : Nat) : FindsFirst _ (prohibitions.offence? graph index) :=
    FindsFirst.bind fun rule =>
      firstForbidden?_findsFirst (graph.nameOf index) (graph.efferentNames index) rule.forbidden
  refine (FindsFirst.findSome? graph.indices each).congr fun place offence => ?_
  simp only [ruleFor?_eq_some_iff, graph.indices_getElem?_eq_some_iff]
  constructor
  · rintro ⟨_, ⟨inGraph, rfl⟩, rule, ⟨contained, before, after, split, others⟩, named, present, among⟩
    rw [← named] at contained others
    refine ⟨?_, present, before, rule, after, split, contained, others, among⟩
    rw [graph.packageNames_getElem? _ inGraph, named]
  · rintro ⟨packaged, present, before, rule, after, split, contained, others, among⟩
    have named := PackageGraph.nameOf_of_getElem? packaged
    rw [← named] at contained others
    exact ⟨_, ⟨PackageGraph.lt_size_of_getElem? packaged, rfl⟩, rule,
      ⟨contained, before, after, split, others⟩, named.symm, present, among⟩

end Prohibitions

end PackageAudit
