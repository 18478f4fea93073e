import PackageAudit.Proofs.Analyzer.Batches
import PackageAudit.Proofs.Text.ByteOrder
/-!
Reports that are consistent in themselves.

A report gives by name what a graph holds by number. Whoever reads one has no graph to look into: a name
in any of its lists has to lead to the one entry of that package, what stands on one side of a dependency
has to stand on the other, and the totals have to follow from the entries. All of this is carried over
from a well-formed graph, whose packages the report puts in the order of their names.
-/

namespace PackageAudit

namespace AnalysisReport

/-- Every name that a report gives, of a package or in one of its lists. -/
def mentioned (report : AnalysisReport) : List String :=
  report.packages.flatMap (fun package =>
    package.name :: (package.efferents ++ package.afferents ++ package.cycle)) ++
  report.cycleGroups.flatten

structure Consistent (report : AnalysisReport) : Prop where
  /-- By the bytes of their names, so no package has two entries. -/
  ascending : report.packages.Pairwise fun one other => Text.utf8 one.name < Text.utf8 other.name
  totalPackages : report.totalPackages = report.packages.length
  totalClasses : report.totalClasses = (report.packages.map (·.totalClasses)).sum
  classes : ∀ package ∈ report.packages,
    package.concreteClasses + package.abstractClasses = package.totalClasses
  couplings : ∀ package ∈ report.packages,
    package.efferentCoupling = package.efferents.length ∧
      package.afferentCoupling = package.afferents.length
  nodup : ∀ package ∈ report.packages, package.efferents.Nodup ∧ package.afferents.Nodup
  mirrored : ∀ one ∈ report.packages, ∀ other ∈ report.packages,
    other.name ∈ one.efferents ↔ one.name ∈ other.afferents
  listed : ∀ name ∈ report.mentioned, ∃ package ∈ report.packages, package.name = name
  begins : ∀ package ∈ report.packages, package.cycle ≠ [] →
    package.cycle.head? = some package.name

end AnalysisReport

namespace Analyzer

open PackageGraph

variable {analyzer : Analyzer}

/-- An entry of a report with the package that it is about. -/
theorem exists_of_mem_packages_report {report : PackageReport}
    (member : report ∈ analyzer.report.packages) :
    ∃ index package, index < analyzer.graph.size ∧ package ∈ analyzer.graph.packages ∧
      report = packageReport analyzer.graph index package ∧
      report.name = analyzer.graph.nameOf index := by
  obtain ⟨index, package, found, rfl⟩ := (analyzer.mem_packages_report report).mp member
  refine ⟨index, package, (List.getElem?_eq_some_iff.mp found).1, List.mem_of_getElem? found, rfl, ?_⟩
  simp only [packageReport, nameOf, found]

theorem mem_names_report_iff (analyzer : Analyzer) (name : String) :
    (∃ package ∈ analyzer.report.packages, package.name = name) ↔
      name ∈ analyzer.graph.packageNames := by
  rw [← analyzer.names_report_perm.mem_iff, List.mem_map]

theorem totalClasses_report_eq (analyzer : Analyzer) :
    analyzer.report.totalClasses = (analyzer.report.packages.map (·.totalClasses)).sum := by
  have entries : (analyzer.report.packages.map (·.totalClasses)).Perm
      (analyzer.graph.packages.map (·.classes.length)) :=
    analyzer.map_packages_report_perm fun _ _ => rfl
  rw [entries.sum_nat, ← classCount_eq_sum]
  rfl

/-- Whatever is named in a report is a package of the graph. -/
theorem mem_packageNames_of_mentioned (wellFormed : analyzer.graph.WellFormed) {name : String}
    (mentioned : name ∈ analyzer.report.mentioned) : name ∈ analyzer.graph.packageNames := by
  have named {indices : List Nat} (inRange : ∀ index ∈ indices, index < analyzer.graph.size)
      (member : name ∈ analyzer.graph.names indices) : name ∈ analyzer.graph.packageNames := by
    obtain ⟨index, present, rfl⟩ := List.mem_map.mp member
    exact (analyzer.graph.mem_packageNames_iff _).mpr ⟨index, inRange index present, rfl⟩
  rcases List.mem_append.mp mentioned with inPackage | inGroup
  · obtain ⟨report, member, here⟩ := List.mem_flatMap.mp inPackage
    obtain ⟨index, package, inGraph, -, same, own⟩ := exists_of_mem_packages_report member
    subst same
    simp only [List.mem_cons, List.mem_append] at here
    obtain rfl | (efferent | afferent) | cyclic := here
    · exact (analyzer.graph.mem_packageNames_iff _).mpr ⟨index, inGraph, own.symm⟩
    · exact named (wellFormed.efferents_lt index) efferent
    · exact named (wellFormed.afferents_lt index) afferent
    · exact named (fun _ => wellFormed.path_lt inGraph) cyclic
  · obtain ⟨names, group, here⟩ := List.mem_flatten.mp inGroup
    obtain ⟨indices, member, rfl⟩ := List.mem_map.mp group
    have component := analyzer.graph.listsComponents_components.isComponent_group member
    exact named (fun _ present => component.lt_size (List.mem_toFinset.mpr present)) here

theorem report_consistent (wellFormed : analyzer.graph.WellFormed) :
    analyzer.report.Consistent where
  ascending := by
    have distinct := analyzer.names_report_perm.nodup_iff.mpr wellFormed.names_nodup
    have both := List.pairwise_map.mp (analyzer.names_report_sorted.and distinct)
    refine both.imp fun ⟨before, apart⟩ => Text.utf8_lt_of_lt ?_
    exact String.not_le.mp fun behind => apart (String.le_antisymm before behind)
  totalPackages := by
    have length := analyzer.names_report_perm.length_eq
    rw [List.length_map, ← size_eq_length_packageNames] at length
    exact length.symm
  totalClasses := analyzer.totalClasses_report_eq
  classes := by
    intro report member
    obtain ⟨index, package, -, present, rfl, -⟩ := exists_of_mem_packages_report member
    have counted : package.abstractClasses ≤ package.classes.length := by
      rw [wellFormed.abstract_counted package present]
      exact List.countP_le_length
    exact Nat.sub_add_cancel counted
  couplings := by
    intro report member
    obtain ⟨index, package, -, -, rfl, -⟩ := exists_of_mem_packages_report member
    exact ⟨(length_names _ _).symm, (length_names _ _).symm⟩
  nodup := by
    intro report member
    obtain ⟨index, package, -, -, rfl, -⟩ := exists_of_mem_packages_report member
    exact ⟨wellFormed.nodup_names (wellFormed.efferents_lt index) (wellFormed.efferents_nodup index),
      wellFormed.nodup_names (wellFormed.afferents_lt index) (wellFormed.afferents_nodup index)⟩
  mirrored := by
    intro one member other present
    obtain ⟨index, package, inGraph, -, rfl, own⟩ := exists_of_mem_packages_report member
    obtain ⟨place, counterpart, placeInGraph, -, rfl, name⟩ := exists_of_mem_packages_report present
    rw [own, name]
    -- Both lists hold the names between which there is a dependency.
    exact (wellFormed.mem_efferentNames_iff inGraph _).trans
      (wellFormed.mem_afferentNames_iff placeInGraph _).symm
  listed name mentioned :=
    (analyzer.mem_names_report_iff name).mpr (mem_packageNames_of_mentioned wellFormed mentioned)
  begins := by
    intro report member nonempty
    obtain ⟨index, package, inGraph, -, rfl, own⟩ := exists_of_mem_packages_report member
    have first := wellFormed.head?_path inGraph fun none =>
      nonempty (List.map_eq_nil_iff.mpr none)
    rw [own, packageReport, names, List.head?_map, first, Option.map_some]

/-- The report of every analyzer is consistent in itself, and its packages are those of the graph, each
once. -/
theorem run_report_consistent (config : Config) (calls : List AnalyzerCall) :
    let analyzer := run config calls
    (analyzer.report.packages.map (·.name)).Perm analyzer.graph.packageNames ∧
      analyzer.report.Consistent :=
  ⟨names_report_perm _, report_consistent (accounts_run config calls).records.wellFormed⟩

end Analyzer

end PackageAudit
