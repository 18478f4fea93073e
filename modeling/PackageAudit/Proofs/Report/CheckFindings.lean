import PackageAudit.Proofs.Analyzer.Checks
import PackageAudit.Proofs.Analyzer.Runs
import PackageAudit.Proofs.Report.Texts
import PackageAudit.Proofs.Shape.ExactDifference
import Mathlib.Data.Option.Basic
/-!
What the report on a check tells.

What can be wrong with a graph is listed here from the graph, from what is forbidden and from what is declared
of it, without looking at any report: the first offence, then packages that only one side has, and for each
package that both have the dependencies that only one side has. The report for people has one line for each of
these and nothing else, unless there are none; only then it says that all rules are satisfied.
-/

namespace PackageAudit

/-- Something that is wrong with a graph. -/
inductive Finding where
  | forbidden (offence : ForbiddenDependency)
  | missingPackage (name : String)
  | unexpectedPackage (name : String)
  | unexpectedDependency (package efferent : String)
  | missingDependency (package efferent : String)
  deriving DecidableEq

namespace Finding

def heading : Finding → String
  | forbidden _ => "FORBIDDEN: "
  | missingPackage _ => "MISSING PACKAGE: "
  | unexpectedPackage _ => "UNEXPECTED PACKAGE: "
  | unexpectedDependency _ _ => "UNEXPECTED DEPENDENCY: "
  | missingDependency _ _ => "MISSING DEPENDENCY: "

def subject : Finding → String
  | forbidden offence => offence.message
  | missingPackage name | unexpectedPackage name => displayName name
  | unexpectedDependency package efferent | missingDependency package efferent =>
    s!"{displayName package} -> {displayName efferent}"

def line (finding : Finding) : String := finding.heading ++ finding.subject

/-- A finding about a graph that is checked against prohibitions and what is declared, if anything is. -/
inductive Holds (prohibitions : Prohibitions) (declared : Option (List Declaration))
    (graph : PackageGraph) : Finding → Prop where
  | forbidden {offence : ForbiddenDependency} (first : prohibitions.firstOffence? graph = some offence) :
    Holds prohibitions declared graph (.forbidden offence)
  | missingPackage {declarations : List Declaration} {name : String} (given : declarations ∈ declared)
      (named : name ∈ declaredNames declarations) (absent : name ∉ graph.packageNames) :
    Holds prohibitions declared graph (.missingPackage name)
  | unexpectedPackage {declarations : List Declaration} {name : String} (given : declarations ∈ declared)
      (present : name ∈ graph.packageNames) (unnamed : name ∉ declaredNames declarations) :
    Holds prohibitions declared graph (.unexpectedPackage name)
  | unexpectedDependency {declarations : List Declaration} {package efferent : String}
      (given : declarations ∈ declared) (named : package ∈ declaredNames declarations)
      (depends : graph.DependsByName package efferent)
      (undeclared : efferent ∉ declaredEfferents declarations package) :
    Holds prohibitions declared graph (.unexpectedDependency package efferent)
  | missingDependency {declarations : List Declaration} {package efferent : String}
      (given : declarations ∈ declared) (present : package ∈ graph.packageNames)
      (isDeclared : efferent ∈ declaredEfferents declarations package)
      (absent : ¬graph.DependsByName package efferent) :
    Holds prohibitions declared graph (.missingDependency package efferent)

/-- The dependencies of a package that are not expected of it, and then those that it lacks. -/
def ofPackage (package : String) (actual expected : List String) : List Finding :=
  (actual.filter (· ∉ expected)).map (unexpectedDependency package) ++
    (expected.filter (· ∉ actual)).map (missingDependency package)

/-- The findings on the dependencies of a package that is declared, if the graph has it. -/
def ofDependencies (declarations : List Declaration) (graph : PackageGraph) (package : String) :
    List Finding :=
  match graph.indexOf? package with
  | some index =>
    ofPackage package (graph.efferentNames index) (declaredEfferents declarations package)
  | none => []

def ofDeclarations (declarations : List Declaration) (graph : PackageGraph) : List Finding :=
  ((declaredNames declarations).filter (· ∉ graph.packageNames)).map missingPackage ++
    (graph.packageNames.filter (· ∉ declaredNames declarations)).map unexpectedPackage ++
    (declaredNames declarations).flatMap (ofDependencies declarations graph)

/-- All findings of a check in the order in which they are reported. -/
def all (prohibitions : Prohibitions) (declared : Option (List Declaration)) (graph : PackageGraph) :
    List Finding :=
  (prohibitions.firstOffence? graph).toList.map forbidden ++
    declared.toList.flatMap (ofDeclarations · graph)

/-! ### What the findings are -/

theorem mem_ofPackage (finding : Finding) (package : String) (actual expected : List String) :
    finding ∈ ofPackage package actual expected ↔
      (∃ efferent ∈ actual, efferent ∉ expected ∧ unexpectedDependency package efferent = finding) ∨
      ∃ efferent ∈ expected, efferent ∉ actual ∧ missingDependency package efferent = finding := by
  simp only [ofPackage, List.mem_append, List.mem_map, List.mem_filter, decide_eq_true_eq, and_assoc]

theorem mem_ofDependencies (finding : Finding) (declarations : List Declaration)
    (graph : PackageGraph) (package : String) :
    finding ∈ ofDependencies declarations graph package ↔
      ∃ index, graph.indexOf? package = some index ∧
        finding ∈ ofPackage package (graph.efferentNames index)
          (declaredEfferents declarations package) := by
  rw [ofDependencies]
  cases graph.indexOf? package <;> simp

theorem mem_ofDeclarations (finding : Finding) (declarations : List Declaration)
    (graph : PackageGraph) :
    finding ∈ ofDeclarations declarations graph ↔
      (∃ name ∈ declaredNames declarations, name ∉ graph.packageNames ∧
        missingPackage name = finding) ∨
      (∃ name ∈ graph.packageNames, name ∉ declaredNames declarations ∧
        unexpectedPackage name = finding) ∨
      ∃ package ∈ declaredNames declarations, finding ∈ ofDependencies declarations graph package := by
  simp only [ofDeclarations, List.mem_append, List.mem_map, List.mem_filter, List.mem_flatMap,
    decide_eq_true_eq, and_assoc, or_assoc]

/-- A declaration of a dependency names the package that depends. -/
theorem mem_declaredNames_of_efferent {declarations : List Declaration} {package efferent : String}
    (declared : efferent ∈ declaredEfferents declarations package) :
    package ∈ declaredNames declarations := by
  have requested := ((mem_requestedTargets _ _ _ _).mp declared).1
  rw [Declaration.mem_flatMap_requests] at requested
  rw [declaredNames, List.mem_eraseDups, List.mem_flatMap]
  exact ⟨_, requested, by simp [Declaration.inOrder]⟩

variable {graph : PackageGraph} (prohibitions : Prohibitions)
  (declared : Option (List Declaration))

theorem mem_all_iff (wellFormed : graph.WellFormed) (finding : Finding) :
    finding ∈ all prohibitions declared graph ↔ finding.Holds prohibitions declared graph := by
  simp only [all, List.mem_append, List.mem_map, Option.mem_toList, List.mem_flatMap,
    mem_ofDeclarations, mem_ofDependencies, mem_ofPackage]
  constructor
  · rintro (⟨offence, first, rfl⟩ | ⟨declarations, given, found⟩)
    · exact .forbidden first
    rcases found with ⟨name, named, absent, rfl⟩ | ⟨name, present, unnamed, rfl⟩ |
      ⟨package, named, index, indexed, dependency⟩
    · exact .missingPackage given named absent
    · exact .unexpectedPackage given present unnamed
    rcases dependency with ⟨efferent, depends, undeclared, rfl⟩ | ⟨efferent, isDeclared, absent, rfl⟩
    · rw [Shape.mem_efferentNames_iff wellFormed indexed] at depends
      exact .unexpectedDependency given named depends undeclared
    · rw [Shape.mem_efferentNames_iff wellFormed indexed] at absent
      exact .missingDependency given
        (List.mem_of_getElem? ((wellFormed.indexOf?_iff _ _).mp indexed)) isDeclared absent
  · intro holds
    cases holds with
    | forbidden first => exact .inl ⟨_, first, rfl⟩
    | missingPackage given named absent => exact .inr ⟨_, given, .inl ⟨_, named, absent, rfl⟩⟩
    | unexpectedPackage given present unnamed =>
      exact .inr ⟨_, given, .inr (.inl ⟨_, present, unnamed, rfl⟩)⟩
    | unexpectedDependency given named depends undeclared =>
      obtain ⟨index, -, indexed, -⟩ := id depends
      rw [← Shape.mem_efferentNames_iff wellFormed indexed] at depends
      exact .inr ⟨_, given, .inr (.inr ⟨_, named, index, indexed,
        .inl ⟨_, depends, undeclared, rfl⟩⟩)⟩
    | missingDependency given present isDeclared absent =>
      obtain ⟨index, named⟩ := List.mem_iff_getElem?.mp present
      have indexed := (wellFormed.indexOf?_iff _ _).mpr named
      rw [← Shape.mem_efferentNames_iff wellFormed indexed] at absent
      exact .inr ⟨_, given, .inr (.inr ⟨_, mem_declaredNames_of_efferent isDeclared, index, indexed,
        .inr ⟨_, isDeclared, absent, rfl⟩⟩)⟩

/-! ### Each finding once -/

theorem nodup_ofPackage (package : String) {actual expected : List String} (once : actual.Nodup)
    (alsoOnce : expected.Nodup) : (ofPackage package actual expected).Nodup := by
  refine List.Nodup.append ?_ ?_ ?_
  · exact (once.filter _).map fun one other same => (unexpectedDependency.inj same).2
  · exact (alsoOnce.filter _).map fun one other same => (missingDependency.inj same).2
  · intro finding unexpected missing
    obtain ⟨efferent, -, rfl⟩ := List.mem_map.mp unexpected
    obtain ⟨other, -, same⟩ := List.mem_map.mp missing
    cases same

/-- Findings on the dependencies of different packages are different. -/
theorem disjoint_ofDependencies (declarations : List Declaration) (graph : PackageGraph)
    {package other : String} (apart : package ≠ other) :
    (ofDependencies declarations graph package).Disjoint (ofDependencies declarations graph other) := by
  intro finding here there
  simp only [mem_ofDependencies, mem_ofPackage] at here there
  rcases here with ⟨_, _, ⟨_, _, _, rfl⟩ | ⟨_, _, _, rfl⟩⟩ <;>
    rcases there with ⟨_, _, ⟨_, _, _, same⟩ | ⟨_, _, _, same⟩⟩ <;> cases same <;> exact apart rfl

theorem nodup_ofDependencies (wellFormed : graph.WellFormed) (declarations : List Declaration)
    (package : String) : (ofDependencies declarations graph package).Nodup := by
  rw [ofDependencies]
  split
  next index _ =>
    exact nodup_ofPackage package (wellFormed.nodup_names (wellFormed.efferents_lt index)
      (wellFormed.efferents_nodup index)) (nodup_eraseDups _)
  next => exact List.nodup_nil

theorem nodup_ofDeclarations (wellFormed : graph.WellFormed) (declarations : List Declaration) :
    (ofDeclarations declarations graph).Nodup := by
  have distinct : (declaredNames declarations).Nodup := nodup_eraseDups _
  refine List.Nodup.append (List.Nodup.append ?_ ?_ ?_) (List.nodup_flatMap.mpr ⟨?_, ?_⟩) ?_
  · exact (distinct.filter _).map fun one other same => missingPackage.inj same
  · exact (wellFormed.names_nodup.filter _).map fun one other same => unexpectedPackage.inj same
  · intro finding missing unexpected
    obtain ⟨name, -, rfl⟩ := List.mem_map.mp missing
    obtain ⟨other, -, same⟩ := List.mem_map.mp unexpected
    cases same
  · exact fun package _ => nodup_ofDependencies wellFormed declarations package
  · exact distinct.imp fun apart => disjoint_ofDependencies declarations graph apart
  · intro finding ofNames ofDependency
    obtain ⟨package, -, found⟩ := List.mem_flatMap.mp ofDependency
    rcases List.mem_append.mp ofNames with missing | unexpected
    · obtain ⟨name, -, rfl⟩ := List.mem_map.mp missing
      simp [mem_ofDependencies, mem_ofPackage] at found
    · obtain ⟨name, -, rfl⟩ := List.mem_map.mp unexpected
      simp [mem_ofDependencies, mem_ofPackage] at found

theorem nodup_all (wellFormed : graph.WellFormed) : (all prohibitions declared graph).Nodup := by
  refine List.Nodup.append ?_ ?_ ?_
  · cases prohibitions.firstOffence? graph <;> simp
  · cases declared with
    | none => simp
    | some declarations => simpa using nodup_ofDeclarations wellFormed declarations
  · intro finding offending found
    obtain ⟨offence, -, rfl⟩ := List.mem_map.mp offending
    obtain ⟨declarations, -, member⟩ := List.mem_flatMap.mp found
    simp [mem_ofDeclarations, mem_ofDependencies, mem_ofPackage] at member

/-! ### The lines of a report -/

theorem lines_efferentDifference? (index : Nat) (package : String) (expected : List String) :
    (Shape.efferentDifference? graph index package expected).toList.flatMap EfferentDifference.lines =
      (ofPackage package (graph.efferentNames index) expected).map line := by
  have lines (unexpected missing : List String) :
      (unexpected.map (unexpectedDependency package) ++ missing.map (missingDependency package)).map
        line = (EfferentDifference.mk package unexpected missing).lines := by
    rw [List.map_append, List.map_map, List.map_map]
    rfl
  rw [ofPackage, lines, Shape.efferentDifference?]
  split
  next same =>
    -- A package without a difference has no entry, and an entry for it would have no lines.
    rw [Bool.and_eq_true, List.isEmpty_iff, List.isEmpty_iff] at same
    rw [same.1, same.2]
    rfl
  next => simp

theorem lines_compare (wellFormed : graph.WellFormed) (declarations : List Declaration) :
    ((Shape.ofDeclarations declarations).compare graph).lines =
      (ofDeclarations declarations graph).map line := by
  have records := (Shape.ofDeclarations_records declarations).1
  have dependencies (declared : String × List String)
      (member : declared ∈ (Shape.ofDeclarations declarations).packages) :
      ((graph.indexOf? declared.1).bind fun index =>
        Shape.efferentDifference? graph index declared.1 declared.2).toList.flatMap
          EfferentDifference.lines = (ofDependencies declarations graph declared.1).map line := by
    rw [ofDependencies, declaredEfferents, ← records.efferents declared member]
    cases graph.indexOf? declared.1 with
    | none => rfl
    | some index => exact lines_efferentDifference? index declared.1 declared.2
  rw [ShapeDifference.lines, Shape.missingPackages_compare declarations wellFormed,
    Shape.unexpectedPackages_compare, ofDeclarations, List.map_append, List.map_append, List.map_map,
    List.map_map, List.map_flatMap]
  congr 1
  rw [Shape.compare, List.filterMap_eq_flatMap_toList, List.flatMap_assoc,
    ← Shape.names_ofDeclarations, Shape.names, List.flatMap_map]
  exact List.flatMap_congr dependencies

/-- No finding is told in words that begin like those for a check that passes. -/
theorem line_append_ne_ok (finding : Finding) (text rest : String) :
    finding.line ++ text ≠ "ok: " ++ rest := by
  have begins : ∀ heading ∈ ["FORBIDDEN: ", "MISSING PACKAGE: ", "UNEXPECTED PACKAGE: ",
      "UNEXPECTED DEPENDENCY: ", "MISSING DEPENDENCY: "],
      heading.toList.head?.any (· ≠ 'o') = true := by decide
  obtain ⟨letter, begins, apart⟩ :=
    (Option.any_eq_true _ _).mp (begins finding.heading (by cases finding <;> simp [heading]))
  have other : "ok: ".toList.head? = some 'o' := by decide
  intro same
  have first := congrArg (·.toList.head?) same
  simp only [line, String.toList_append, List.head?_append, begins, other, Option.some_or,
    Option.some.injEq] at first
  exact of_decide_eq_true apart first

end Finding

namespace Analyzer

variable {analyzer : Analyzer} (prohibitions : Prohibitions) {declared : Option (List Declaration)}
  {expected : Option Shape}

theorem lines_check (wellFormed : analyzer.graph.WellFormed)
    (built : Option.Rel Shape.Built declared expected) :
    (analyzer.check prohibitions expected).lines =
      (Finding.all prohibitions declared analyzer.graph).map Finding.line ++
        if (analyzer.check prohibitions expected).passed then
          [s!"ok: {prohibitions.rules.length} rule(s) satisfied"] else [] := by
  have forbidden : ((prohibitions.firstOffence? analyzer.graph).map fun offence =>
      "FORBIDDEN: " ++ offence.message).toList =
        ((prohibitions.firstOffence? analyzer.graph).toList.map Finding.forbidden).map Finding.line := by
    cases prohibitions.firstOffence? analyzer.graph <;> rfl
  have different : ((expected.map (·.compare analyzer.graph)).map (·.lines)).getD [] =
      (declared.toList.flatMap (Finding.ofDeclarations · analyzer.graph)).map Finding.line := by
    cases built with
    | none => rfl
    | some built =>
      rw [built.eq_ofDeclarations, Option.map_some, Option.map_some, Option.getD_some,
        Finding.lines_compare wellFormed, Option.toList_some, List.flatMap_singleton]
  rw [Finding.all, List.map_append, ← forbidden, ← different]
  rfl

/-- A check passes if there is nothing to tell, for a difference that is not empty has lines. -/
theorem passed_check_iff_all_eq_nil (wellFormed : analyzer.graph.WellFormed)
    (built : Option.Rel Shape.Built declared expected) :
    (analyzer.check prohibitions expected).passed = true ↔
      Finding.all prohibitions declared analyzer.graph = [] := by
  have offence : (analyzer.check prohibitions expected).violation =
      prohibitions.firstOffence? analyzer.graph := rfl
  rw [CheckReport.passed, offence, Finding.all, List.append_eq_nil_iff, List.map_eq_nil_iff,
    Option.toList_eq_nil_iff, Bool.and_eq_true, Option.isNone_iff_eq_none]
  refine and_congr_right fun _ => ?_
  cases built with
  | none => simp [check]
  | @some declarations shape built =>
    have lines := Finding.lines_compare wellFormed declarations
    rw [← built.eq_ofDeclarations] at lines
    rw [Option.toList_some, List.flatMap_singleton, ← List.map_eq_nil_iff (f := Finding.line), ← lines]
    change (shape.compare analyzer.graph).isEmpty = true ↔ _
    constructor
    · intro empty
      simp only [ShapeDifference.isEmpty, Bool.and_eq_true, List.isEmpty_iff] at empty
      simp [ShapeDifference.lines, empty]
    · intro silent
      by_contra different
      exact (shape.compare_proper analyzer.graph).lines_ne_nil (Bool.eq_false_iff.mpr different) silent

/-- After any calls, the report for people on a check is the line that all rules are satisfied if and only if
the check passed. On any other check it has one line for each finding and no other, none of which begins like
that line. No finding is told twice, and all that are true are told. -/
theorem toText_check (config : Config) (calls : List AnalyzerCall) (prohibitions : Prohibitions)
    {declared : Option (List Declaration)} {expected : Option Shape}
    (built : Option.Rel Shape.Built declared expected) :
    let analyzer := run config calls
    let report := analyzer.check prohibitions expected
    let findings := Finding.all prohibitions declared analyzer.graph
    (report.toText = s!"ok: {prohibitions.rules.length} rule(s) satisfied" ++ "\n" ↔
      report.passed = true) ∧
    (report.passed = false → report.toText ≠ "" ∧ report.toText = ofLines (findings.map Finding.line)) ∧
    (∀ finding ∈ findings, ∀ rest, finding.line ≠ "ok: " ++ rest) ∧
    findings.Nodup ∧
    ∀ finding, finding ∈ findings ↔ finding.Holds prohibitions declared analyzer.graph := by
  intro analyzer report findings
  have wellFormed := (accounts_run config calls).records.wellFormed
  have lines := lines_check prohibitions wellFormed built
  have passed_iff := passed_check_iff_all_eq_nil prohibitions wellFormed built
  have failing (failed : report.passed = false) :
      report.toText = ofLines (findings.map Finding.line) := by
    rw [CheckReport.toText, lines, if_neg (Bool.eq_false_iff.mp failed), List.append_nil]
  refine ⟨⟨fun satisfied => ?_, fun passed => ?_⟩, fun failed => ⟨?_, failing failed⟩, ?_,
    Finding.nodup_all _ _ wellFormed, Finding.mem_all_iff _ _ wellFormed⟩
  · by_contra failed
    -- The text of a failing check begins with a finding, which that of a passing one does not.
    obtain ⟨finding, rest, told⟩ := List.exists_cons_of_ne_nil (mt passed_iff.mpr failed)
    have begins : ofLines (findings.map Finding.line) =
        finding.line ++ ("\n" ++ ofLines (rest.map Finding.line)) := by
      rw [show findings = finding :: rest from told]
      simp [ofLines, String.append_assoc]
    rw [failing (Bool.eq_false_iff.mpr failed), begins] at satisfied
    exact finding.line_append_ne_ok _ _ (satisfied.trans (by simp only [String.append_assoc]; rfl))
  · rw [CheckReport.toText, lines, passed_iff.mp passed, if_pos passed]
    simp [ofLines]
  · rw [failing failed]
    refine ofLines_ne_empty (mt List.map_eq_nil_iff.mp (mt passed_iff.mpr ?_))
    exact Bool.eq_false_iff.mp failed
  · intro finding _ rest
    simpa using finding.line_append_ne_ok "" rest

/-- Findings of all kinds, where a forbidden dependency is also one that nobody declared, and where the default
package depends upon another package than is declared of it. -/
theorem toText_check_all_kinds :
    let calls : List AnalyzerCall := [.foldRecord ⟨"web.A", "web", none, false, ["java.sql", "util"]⟩,
      .foldRecord ⟨"Main", "", none, false, ["web"]⟩]
    let prohibitions : Prohibitions := ⟨[⟨"web", ["java.*"]⟩]⟩
    let declarations : List Declaration := [.package "jms", .dependency "web" "util",
      .dependency "" "util"]
    let report := (run {} calls).check prohibitions (some (Shape.ofDeclarations declarations))
    report.passed = false ∧
      report.toText = "FORBIDDEN: Package web can't depend on java.sql\n" ++
        "MISSING PACKAGE: jms\n" ++
        "UNEXPECTED PACKAGE: java.sql\n" ++
        "UNEXPECTED DEPENDENCY: web -> java.sql\n" ++
        "UNEXPECTED DEPENDENCY: (default) -> web\n" ++
        "MISSING DEPENDENCY: (default) -> util\n" := by
  intro calls prohibitions declarations report
  have failed : report.passed = false := by decide +kernel
  have told := ((toText_check {} calls prohibitions (.some (.declared declarations))).2.1 failed).2
  refine ⟨failed, told.trans ?_⟩
  decide +kernel

end Analyzer

end PackageAudit
