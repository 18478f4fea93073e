import PackageAudit.Analyzer
import PackageAudit.Proofs.Prohibitions.FirstOffence
import PackageAudit.Proofs.Shape.Differences
/-!
What a check of an analyzed graph says.

A check carries the first offence against the prohibitions, which is the least by the number of its package,
then by the number of its pattern in the rule for the package, and then by the number of its dependency. It
passes if there is none and if the graph does not differ from the expected shape.
-/

namespace PackageAudit

namespace Analyzer

variable (analyzer : Analyzer) (found : Prohibitions) (expected : Option Shape)

theorem passed_check_iff :
    (analyzer.check found expected).passed = true ↔
      ¬found.Violated analyzer.graph ∧ ∀ shape ∈ expected, ¬shape.Differs analyzer.graph := by
  rw [← found.firstOffence?_eq_none_iff_not_violated]
  cases expected <;> simp [check, CheckReport.passed, ← Shape.compare_isEmpty_iff]

theorem status_check_eq_ok_iff :
    (analyzer.check found expected).status = "ok" ↔
      (analyzer.check found expected).passed = true := by
  -- The status is filled in last, and whether a check has passed does not depend on it.
  change (if (analyzer.check found expected).passed then "ok" else "violation") = "ok" ↔ _
  split <;> simp_all

end Analyzer

namespace Prohibitions

theorem firstOffence?_eq_some_iff (prohibitions : Prohibitions) (graph : PackageGraph)
    (offence : ForbiddenDependency) :
    prohibitions.firstOffence? graph = some offence ↔ ∃ package pattern efferent,
      prohibitions.OffendsAt graph package pattern efferent offence ∧
      ∀ otherPackage otherPattern otherEfferent another,
        prohibitions.OffendsAt graph otherPackage otherPattern otherEfferent another →
        toLex (package, toLex (pattern, efferent)) ≤
          toLex (otherPackage, toLex (otherPattern, otherEfferent)) := by
  rw [(prohibitions.firstOffence?_findsFirst graph).eq_some_iff OffendsAt.eq]
  constructor
  · rintro ⟨place, here, least⟩
    exact ⟨_, _, _, here, fun package pattern efferent =>
      least (toLex (package, toLex (pattern, efferent)))⟩
  · rintro ⟨package, pattern, efferent, here, least⟩
    exact ⟨toLex (package, toLex (pattern, efferent)), here, fun other => least _ _ _⟩

/-- The search finds nothing if nothing offends, and else the first offence by package, pattern and
dependency, where the dependencies of a package stand in the order of the first requests for them. What is
found is a dependency of the graph. A check carries it, and its status tells whether there is one or another
shape than the expected. -/
theorem check_finds_first_offence (prohibitions : Prohibitions) {allowSelf : Bool}
    {operations : List GraphOperation} {graph : PackageGraph} {requests : List (String × String)}
    (run : GraphOperation.Run allowSelf operations graph requests) :
    (prohibitions.firstOffence? graph = none ↔ ∀ package pattern efferent offence,
      ¬prohibitions.OffendsAt graph package pattern efferent offence) ∧
    (∀ offence, prohibitions.firstOffence? graph = some offence ↔ ∃ package pattern efferent,
      prohibitions.OffendsAt graph package pattern efferent offence ∧
      ∀ otherPackage otherPattern otherEfferent another,
        prohibitions.OffendsAt graph otherPackage otherPattern otherEfferent another →
        toLex (package, toLex (pattern, efferent)) ≤
          toLex (otherPackage, toLex (otherPattern, otherEfferent))) ∧
    (∀ package < graph.size, graph.efferentNames package =
      requestedTargets allowSelf requests (graph.nameOf package)) ∧
    (∀ offence, prohibitions.firstOffence? graph = some offence →
      graph.DependsByName offence.package offence.efferent) ∧
    ∀ (analyzer : Analyzer) (expected : Option Shape), analyzer.graph = graph →
      (analyzer.check prohibitions expected).violation = prohibitions.firstOffence? graph ∧
      ((analyzer.check prohibitions expected).status = "ok" ↔
        prohibitions.firstOffence? graph = none ∧ ∀ shape ∈ expected, ¬shape.Differs graph) := by
  obtain ⟨records, rfl⟩ := run.records
  have search := prohibitions.firstOffence?_findsFirst graph
  refine ⟨⟨?_, ?_⟩, prohibitions.firstOffence?_eq_some_iff graph, records.efferents, ?_, ?_⟩
  · intro silent package pattern efferent offence
    rw [silent] at search
    exact search.not_stands (toLex (package, toLex (pattern, efferent))) offence
  · intro clean
    cases found : prohibitions.firstOffence? graph with
    | none => rfl
    | some offence =>
      obtain ⟨package, pattern, efferent, here, -⟩ :=
        (prohibitions.firstOffence?_eq_some_iff graph offence).mp found
      exact absurd here (clean package pattern efferent offence)
  · intro offence found
    obtain ⟨package, pattern, efferent, here, -⟩ :=
      (prohibitions.firstOffence?_eq_some_iff graph offence).mp found
    have inGraph := PackageGraph.lt_size_of_getElem? here.isPackage
    rw [← PackageGraph.nameOf_of_getElem? here.isPackage,
      ← records.wellFormed.mem_efferentNames_iff inGraph]
    exact List.mem_of_getElem? here.isEfferent
  · rintro analyzer expected rfl
    refine ⟨rfl, ?_⟩
    rw [analyzer.status_check_eq_ok_iff, analyzer.passed_check_iff,
      prohibitions.firstOffence?_eq_none_iff_not_violated]

/-- Two owners that the name of the default package is part of, the first of which counts, and a pattern that
is met by a later dependency than the pattern behind it. -/
theorem check_finds_first_offence_overlapping :
    ∃ graph requests,
      GraphOperation.Run false [.dependsUpon "" "java.util", .dependsUpon "app" "java.util",
        .dependsUpon "app" "java.sql"] graph requests ∧
      ∃ package pattern efferent,
        (⟨[⟨"lib", ["java.net"]⟩, ⟨"app.ui", ["java.sql", "java.*"]⟩]⟩ : Prohibitions).OffendsAt graph
          package pattern efferent ⟨"java.sql", "app"⟩ := by
  have run := GraphOperation.Run.step (.dependsUpon "app" "java.sql")
    (.step (.dependsUpon "app" "java.util") (.step (.dependsUpon "" "java.util")
      (@GraphOperation.Run.empty false) trivial) trivial) trivial
  have first := (check_finds_first_offence
    ⟨[⟨"lib", ["java.net"]⟩, ⟨"app.ui", ["java.sql", "java.*"]⟩]⟩ run).2.1 ⟨"java.sql", "app"⟩
  obtain ⟨package, pattern, efferent, here, -⟩ := first.mp (by decide +kernel)
  exact ⟨_, _, run, package, pattern, efferent, here⟩

end Prohibitions

end PackageAudit
