import PackageAudit.Shape
/-!
What a comparison with a shape finds.

A comparison lists three kinds of differences and is empty if there are none of any kind. Dependencies are
compared as sets, for a difference in their order or number alone is not one.
-/

namespace PackageAudit

/-- Where an entry is listed for a package, there is a dependency in it. -/
def ShapeDifference.Proper (difference : ShapeDifference) : Prop :=
  ∀ entry ∈ difference.efferentDifferences, entry.unexpected ≠ [] ∨ entry.missing ≠ []

namespace Shape

variable {shape : Shape} {graph : PackageGraph}

/-- The graph is not what the shape declares. -/
inductive Differs (shape : Shape) (graph : PackageGraph) : Prop where
  | missing (name : String) (declared : name ∈ shape.packages.map (·.1))
      (absent : graph.indexOf? name = none)
  | unexpected (package : Package) (present : package ∈ graph.packages)
      (undeclared : shape.efferentsOf? package.name = none)
  /-- Only one of the two has a certain dependency of a package that both have. -/
  | dependency (name : String) (expected : List String) (index : Nat) (efferent : String)
      (declared : (name, expected) ∈ shape.packages) (present : graph.indexOf? name = some index)
      (apart : ¬(efferent ∈ graph.efferentNames index ↔ efferent ∈ expected))

theorem efferentDifference?_eq_none_iff (index : Nat) (name : String) (expected : List String) :
    efferentDifference? graph index name expected = none ↔
      ∀ efferent, efferent ∈ graph.efferentNames index ↔ efferent ∈ expected := by
  simp only [efferentDifference?, ite_eq_left_iff, reduceCtorEq, imp_false, Decidable.not_not,
    Bool.and_eq_true, List.isEmpty_iff, List.filter_eq_nil_iff, decide_eq_true_eq]
  exact ⟨fun ⟨one, other⟩ efferent => ⟨one efferent, other efferent⟩,
    fun same => ⟨fun efferent => (same efferent).mp, fun efferent => (same efferent).mpr⟩⟩

theorem compare_isEmpty_iff : (shape.compare graph).isEmpty = true ↔ ¬shape.Differs graph := by
  simp only [ShapeDifference.isEmpty, compare, Bool.and_eq_true, List.isEmpty_iff,
    List.filter_eq_nil_iff, List.filterMap_eq_nil_iff, Option.bind_eq_none_iff,
    efferentDifference?_eq_none_iff, Option.isNone_iff_eq_none, List.forall_mem_map]
  constructor
  · rintro ⟨⟨missing, unexpected⟩, dependencies⟩ differs
    cases differs with
    | missing name declared absent =>
      obtain ⟨entry, member, rfl⟩ := List.mem_map.mp declared
      exact missing entry member absent
    | unexpected package present undeclared => exact unexpected package present undeclared
    | dependency name expected index efferent declared present apart =>
      exact apart (dependencies (name, expected) declared index present efferent)
  · intro same
    refine ⟨⟨?_, ?_⟩, ?_⟩
    · intro entry member absent
      exact same (.missing entry.1 (List.mem_map_of_mem member) absent)
    · intro package present undeclared
      exact same (.unexpected package present undeclared)
    · intro entry declared index present efferent
      exact Decidable.byContradiction fun apart =>
        same (.dependency entry.1 entry.2 index efferent declared present apart)

theorem compare_proper (shape : Shape) (graph : PackageGraph) : (shape.compare graph).Proper := by
  intro entry member
  obtain ⟨⟨name, expected⟩, -, found⟩ := List.mem_filterMap.mp member
  obtain ⟨index, -, listed⟩ := Option.bind_eq_some_iff.mp found
  simp only [efferentDifference?] at listed
  split at listed
  · cases listed
  next different =>
    cases listed
    rw [Bool.and_eq_true, List.isEmpty_iff, List.isEmpty_iff] at different
    exact Decidable.not_and_iff_not_or_not.mp different

end Shape

end PackageAudit
