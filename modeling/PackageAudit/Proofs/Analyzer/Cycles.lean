import PackageAudit.Proofs.Analyzer.Runs
import PackageAudit.Proofs.Graph.CycleSearch
/-!
Cycles in reports.

A report says in three places whether there is a cycle: in a flag, in its cyclic groups, and in the
cycle path of each package. The flag follows the groups, and an analyzer asked directly follows the
finding walk. That they never differ rests on what each computes, for they share no code.
-/

namespace PackageAudit.Analyzer

variable {analyzer : Analyzer}

theorem mem_packages_report (analyzer : Analyzer) (report : PackageReport) :
    report ∈ analyzer.report.packages ↔ ∃ index package,
      analyzer.graph.packages[index]? = some package ∧
        packageReport analyzer.graph index package = report := by
  simp only [Analyzer.report, List.mem_mergeSort, List.mem_map, Prod.exists,
    List.mem_zipIdx_iff_getElem?]
  exact exists_comm

theorem exists_cycle_iff (wellFormed : analyzer.graph.WellFormed) :
    (∃ package ∈ analyzer.report.packages, package.cycle ≠ []) ↔
      ∃ start < analyzer.graph.size, LeadsToCycle analyzer.graph.efferents start := by
  have cycle (index : Nat) (package : Package) :
      (packageReport analyzer.graph index package).cycle ≠ [] ↔
        (analyzer.graph.cyclePath index).path ≠ [] := by
    simp only [packageReport, PackageGraph.names, Ne, List.map_eq_nil_iff]
  constructor
  · rintro ⟨report, member, cyclic⟩
    obtain ⟨index, package, found, rfl⟩ := (analyzer.mem_packages_report report).mp member
    have inRange : index < analyzer.graph.size := (List.getElem?_eq_some_iff.mp found).1
    exact ⟨index, inRange, (wellFormed.path_ne_nil_iff inRange).mp ((cycle index package).mp cyclic)⟩
  · rintro ⟨start, inRange, leads⟩
    have found : analyzer.graph.packages[start]? = some analyzer.graph.packages[start] :=
      List.getElem?_eq_getElem inRange
    exact ⟨_, (analyzer.mem_packages_report _).mpr ⟨start, _, found, rfl⟩,
      (cycle start _).mpr ((wellFormed.path_ne_nil_iff inRange).mpr leads)⟩

theorem cycleGroups_report_ne_nil_iff (analyzer : Analyzer) :
    analyzer.report.cycleGroups ≠ [] ↔
      ∃ start < analyzer.graph.size, LeadsToCycle analyzer.graph.efferents start := by
  rw [← analyzer.graph.cycleGroups_ne_nil_iff]
  simp only [Analyzer.report, Ne, List.map_eq_nil_iff]

/-- All analyses of cycles agree: for a package the two walks, the path of the collecting walk and the
cyclic groups that the package reaches, and for a whole graph the finding walk and all that a report
says. -/
theorem cycle_analyses_agree :
    (∀ graph : PackageGraph, graph.WellFormed → ∀ start < graph.size,
      graph.reachesCycle start = (graph.cyclePath start).containsCycle ∧
      (graph.cyclePath start).containsCycle = !(graph.cyclePath start).path.isEmpty ∧
      ((graph.cyclePath start).containsCycle = true ↔
        ∃ group ∈ graph.cycleGroups, ∃ member ∈ group, Reaches graph.efferents start member)) ∧
    ∀ config calls,
      let analyzer := run config calls
      analyzer.containsCycles = analyzer.report.containsCycles ∧
      analyzer.report.containsCycles = !analyzer.report.cycleGroups.isEmpty ∧
      (analyzer.report.containsCycles = true ↔
        ∃ package ∈ analyzer.report.packages, package.cycle ≠ []) := by
  constructor
  · intro graph wellFormed start inGraph
    have found := wellFormed.containsCycle_iff inGraph
    refine ⟨?_, ?_, found.trans (graph.leadsToCycle_iff_reaches_group start)⟩
    · rw [Bool.eq_iff_iff, wellFormed.reachesCycle_iff inGraph, found]
    · rw [Bool.eq_iff_iff, found, ← wellFormed.path_ne_nil_iff inGraph]
      simp
  · intro config calls analyzer
    have wellFormed := (accounts_run config calls).records.wellFormed
    have flag : analyzer.report.containsCycles = !analyzer.report.cycleGroups.isEmpty := rfl
    have groups : analyzer.report.containsCycles = true ↔
        ∃ start < analyzer.graph.size, LeadsToCycle analyzer.graph.efferents start := by
      rw [flag, ← analyzer.cycleGroups_report_ne_nil_iff]
      simp
    refine ⟨?_, flag, groups.trans (exists_cycle_iff wellFormed).symm⟩
    -- Asked directly, an analyzer walks, and does not look at the groups.
    rw [Bool.eq_iff_iff, groups]
    exact wellFormed.containsCycles_iff

/-- A package that depends upon a cycle of two others, and a run that folds two classes whose packages
refer to one another. -/
theorem cycle_analyses_agree_two_way :
    (∃ graph : PackageGraph, graph.WellFormed ∧ 0 < graph.size ∧
      (graph.cyclePath 0).path = [0, 1, 2, 1] ∧
      ∃ group ∈ graph.cycleGroups, ∃ member ∈ group, Reaches graph.efferents 0 member) ∧
    ∃ one other : ClassRecord,
      ∃ package ∈ (run {} [.foldRecord one, .foldRecord other]).report.packages,
        package.cycle ≠ [] := by
  constructor
  · have records := (((PackageGraph.records_empty false).dependsUpon "a" "b").dependsUpon
      "b" "c").dependsUpon "c" "b"
    obtain ⟨walks, -, groups⟩ := cycle_analyses_agree.1 _ records.wellFormed 0 (by decide)
    have found : (PackageGraph.cyclePath _ 0).containsCycle = true := walks.symm.trans (by decide)
    exact ⟨_, records.wellFormed, by decide, by decide, groups.mp found⟩
  · let one : ClassRecord := ⟨"a.One", "a", none, false, ["b"]⟩
    let other : ClassRecord := ⟨"b.Other", "b", none, false, ["a"]⟩
    obtain ⟨asked, -, cycles⟩ := cycle_analyses_agree.2 {} [.foldRecord one, .foldRecord other]
    exact ⟨one, other, cycles.mp (asked.symm.trans (by decide +kernel))⟩

end PackageAudit.Analyzer
