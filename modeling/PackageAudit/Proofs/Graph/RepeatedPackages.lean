import PackageAudit.Proofs.Graph.CyclePath
/-!
Which packages the path of a collecting walk repeats.

A walk repeats a package when it meets one that stands in the path already. The path lists the packages on
the way from the start, and also those of branches that have been walked to their end and have led to a
cycle. So besides packages on cycles it repeats those in which two such branches meet: what is behind them is
listed once, and the second branch ends with their name.

As a package stands in the path once for each dependency upon it from within, and the start once more, those
repeated outside all cycles are exactly the ones in which two branches meet on the way to a cycle.
-/

namespace PackageAudit

open Relation (ReflTransGen TransGen)

section

variable {efferents : Nat → List Nat} {start node : Nat}

/-- Two packages in reach of the start depend upon one that leads to a cycle and lies on none. -/
structure BranchesMeet (efferents : Nat → List Nat) (start node : Nat) : Prop where
  leads : LeadsToCycle efferents node
  outside : ¬OnCycle efferents node
  meet : ∃ one other, one ≠ other ∧ Reaches efferents start one ∧ Reaches efferents start other ∧
    DependsUpon efferents one node ∧ DependsUpon efferents other node

/-- What leads from a package only to others that lead nowhere else does not lead back. -/
theorem not_onCycle_of_closed {others : List Nat} (first : ∀ target ∈ efferents node, target ∈ others)
    (closed : ∀ source ∈ others, ∀ target ∈ efferents source, target ∈ others)
    (outside : node ∉ others) : ¬OnCycle efferents node := by
  intro cyclic
  have held (target : Nat) (leads : TransGen (DependsUpon efferents) node target) :
      target ∈ others := by
    induction leads with
    | single depends => exact first _ depends
    | tail _ depends ih => exact closed _ ih _ depends
  exact outside (held node cyclic)

end

namespace PackageGraph

variable {graph : PackageGraph} {start node : Nat}

theorem count_path (wellFormed : graph.WellFormed) (inGraph : start < graph.size)
    (leads : LeadsToCycle graph.efferents node) :
    (graph.cyclePath start).path.count node =
      ((graph.cyclicPart start).filter fun source => node ∈ graph.efferents source).card +
        if node = start then 1 else 0 := by
  obtain ⟨after, path, walked⟩ := cyclePath_walked wellFormed inGraph
  rw [path, List.count_reverse, walked.count_eq leads, toFinset_path wellFormed inGraph walked,
    Finset.card_filter]
  -- No package depends upon another twice, so each source counts once.
  congr 1
  exact Finset.sum_congr rfl fun source _ => (wellFormed.efferents_nodup source).count

theorem leadsToCycle_of_mem_path (wellFormed : graph.WellFormed) (inGraph : start < graph.size)
    (member : node ∈ (graph.cyclePath start).path) : LeadsToCycle graph.efferents node := by
  obtain ⟨after, path, walked⟩ := cyclePath_walked wellFormed inGraph
  rw [path, List.mem_reverse, ← List.mem_toFinset, toFinset_path wellFormed inGraph walked,
    wellFormed.mem_cyclicPart inGraph] at member
  exact member.2

/-- What a path repeats outside all cycles is what branches meet in. -/
theorem repeats_outside_iff (wellFormed : graph.WellFormed) (inGraph : start < graph.size) :
    1 < (graph.cyclePath start).path.count node ∧ ¬OnCycle graph.efferents node ↔
      BranchesMeet graph.efferents start node := by
  constructor
  · rintro ⟨repeated, outside⟩
    have leads := leadsToCycle_of_mem_path wellFormed inGraph
      (List.count_pos_iff.mp (Nat.zero_lt_of_lt repeated))
    rw [count_path wellFormed inGraph leads] at repeated
    -- The start stands in the path once more than it is depended upon, but then a cycle closes in it.
    have sources : 1 < ((graph.cyclicPart start).filter fun source =>
        node ∈ graph.efferents source).card := by
      by_cases first : node = start
      · rw [if_pos first] at repeated
        obtain ⟨source, member⟩ := Finset.card_pos.mp (Nat.lt_of_succ_lt_succ repeated)
        rw [Finset.mem_filter, wellFormed.mem_cyclicPart inGraph] at member
        exact absurd (TransGen.tail' (first ▸ member.1.1) member.2) outside
      · rwa [if_neg first] at repeated
    obtain ⟨one, memberOne, other, memberOther, apart⟩ := Finset.one_lt_card.mp sources
    rw [Finset.mem_filter, wellFormed.mem_cyclicPart inGraph] at memberOne memberOther
    exact ⟨leads, outside, one, other, apart, memberOne.1.1, memberOther.1.1, memberOne.2,
      memberOther.2⟩
  · rintro ⟨leads, outside, one, other, apart, reachesOne, reachesOther, dependsOne, dependsOther⟩
    -- What leads to a package that leads to a cycle is in the path as well.
    have inside (source : Nat) (reaches : Reaches graph.efferents start source)
        (depends : DependsUpon graph.efferents source node) :
        source ∈ (graph.cyclicPart start).filter fun source => node ∈ graph.efferents source := by
      rw [Finset.mem_filter, wellFormed.mem_cyclicPart inGraph]
      exact ⟨⟨reaches, leads.of_dependsUpon depends⟩, depends⟩
    have sources := Finset.one_lt_card.mpr
      ⟨one, inside one reachesOne dependsOne, other, inside other reachesOther dependsOther, apart⟩
    rw [count_path wellFormed inGraph leads]
    exact ⟨Nat.lt_add_right _ sources, outside⟩

/-- A package that a path repeats lies on a cycle, or branches meet in it on the way to one. Where branches
meet, the path does repeat the package; so it repeats only packages on cycles exactly if none meet. -/
theorem cyclePath_repeats_cyclic_iff (wellFormed : graph.WellFormed) (inGraph : start < graph.size) :
    (∀ node, 1 < (graph.cyclePath start).path.count node →
      OnCycle graph.efferents node ∨ BranchesMeet graph.efferents start node) ∧
    (∀ node, BranchesMeet graph.efferents start node →
      1 < (graph.cyclePath start).path.count node ∧ ¬OnCycle graph.efferents node) ∧
    ((∀ node, 1 < (graph.cyclePath start).path.count node → OnCycle graph.efferents node) ↔
      ∀ node, ¬BranchesMeet graph.efferents start node) := by
  refine ⟨fun node repeated => ?_, fun node => (repeats_outside_iff wellFormed inGraph).mpr, ?_⟩
  · by_cases cyclic : OnCycle graph.efferents node
    · exact .inl cyclic
    · exact .inr ((repeats_outside_iff wellFormed inGraph).mp ⟨repeated, cyclic⟩)
  · simp only [← repeats_outside_iff wellFormed inGraph, not_and, not_not]

/-- The graph of dependencies between names that are requested in order. -/
def ofDependencies (pairs : List (String × String)) : PackageGraph :=
  pairs.foldl (fun graph pair => (graph.dependsUpon pair.1 pair.2).1) (.empty false)

theorem ofDependencies_records (pairs : List (String × String)) :
    (ofDependencies pairs).Records pairs := by
  induction pairs using List.reverseRecOn with
  | nil => exact records_empty false
  | append_singleton pairs last ih =>
    rw [ofDependencies, List.foldl_append]
    exact ih.dependsUpon last.1 last.2

/-- Two packages that depend upon one another, and a third that depends upon both: its branches meet, but
on the cycle. -/
theorem cyclePath_repeats_cyclic_two_way :
    let graph := ofDependencies [("a", "b"), ("b", "a"), ("c", "a"), ("c", "b")]
    graph.WellFormed ∧ 2 < graph.size ∧ (graph.cyclePath 2).path = [2, 0, 1, 0, 1] ∧
      ∀ node, 1 < (graph.cyclePath 2).path.count node → OnCycle graph.efferents node := by
  intro graph
  have wellFormed := (ofDependencies_records [("a", "b"), ("b", "a"), ("c", "a"), ("c", "b")]).wellFormed
  have inGraph : 2 < graph.size := by decide
  refine ⟨wellFormed, inGraph, by decide, ?_⟩
  refine (cyclePath_repeats_cyclic_iff wellFormed inGraph).2.2.mpr ?_
  rintro node ⟨-, outside, one, -, -, reaches, -, depends, -⟩
  -- All that is depended upon are the two packages on the cycle.
  have targets : ∀ source < graph.size, ∀ target ∈ graph.efferents source,
      target = 0 ∨ target = 1 := by
    decide
  have there : 1 ∈ graph.efferents 0 := by decide
  have back : 0 ∈ graph.efferents 1 := by decide
  rcases targets one (wellFormed.reaches_lt inGraph reaches) node depends with rfl | rfl
  · exact outside (TransGen.head there (TransGen.single back))
  · exact outside (TransGen.head back (TransGen.single there))

/-- Two branches meet in a package before the cycle behind it. The second one ends with that package, which
then stands in the path twice although it lies on no cycle. -/
theorem cyclePath_repeats_joint :
    let graph :=
      ofDependencies [("a", "b"), ("a", "c"), ("b", "d"), ("c", "b"), ("d", "e"), ("e", "d")]
    graph.WellFormed ∧ 0 < graph.size ∧
      graph.names (graph.cyclePath 0).path = ["a", "b", "d", "e", "d", "c", "b"] ∧
      1 < (graph.cyclePath 0).path.count 1 ∧ ¬OnCycle graph.efferents 1 := by
  intro graph
  refine ⟨(ofDependencies_records _).wellFormed, by decide, by decide, by decide, ?_⟩
  -- From b only d and e are reached.
  exact @not_onCycle_of_closed _ _ [3, 4] (by decide) (by decide) (by decide)

end PackageGraph

end PackageAudit
