import PackageAudit.ClassFile.Builder
import PackageAudit.Proofs.Analyzer.Cycles
import PackageAudit.Proofs.Graph.ByName
/-!
The order in which class files are given.

It decides the numbers of packages, and with them the order of dependencies, the paths of cycles and
the order of cyclic groups. All else in a report is the same for every order: the account of a run says
what the graph holds under each name by the classes that were folded, and each class is judged by
itself. Packages are reported by name, so two reports list the same packages at the same places.
-/

namespace PackageAudit

/-- Reports on a package that differ at most in the order of names and in the path of its cycles. -/
structure PackageReport.Agrees (report alike : PackageReport) : Prop where
  name : report.name = alike.name
  totalClasses : report.totalClasses = alike.totalClasses
  concreteClasses : report.concreteClasses = alike.concreteClasses
  abstractClasses : report.abstractClasses = alike.abstractClasses
  afferentCoupling : report.afferentCoupling = alike.afferentCoupling
  efferentCoupling : report.efferentCoupling = alike.efferentCoupling
  abstractness : report.abstractness = alike.abstractness
  instability : report.instability = alike.instability
  distance : report.distance = alike.distance
  volatility : report.volatility = alike.volatility
  efferents : report.efferents.Perm alike.efferents
  afferents : report.afferents.Perm alike.afferents
  cycle : report.cycle = [] ↔ alike.cycle = []

/-- Reports that differ at most in the order of names, cyclic groups and failures and in the paths of
cycles. Packages are listed in the same order. -/
structure AnalysisReport.Agrees (report alike : AnalysisReport) : Prop where
  totalClasses : report.totalClasses = alike.totalClasses
  totalPackages : report.totalPackages = alike.totalPackages
  containsCycles : report.containsCycles = alike.containsCycles
  packages : List.Forall₂ PackageReport.Agrees report.packages alike.packages
  cycleGroups : (report.cycleGroups.map List.toFinset).toFinset =
    (alike.cycleGroups.map List.toFinset).toFinset
  failures : report.failures.Perm alike.failures

namespace Analyzer

open PackageGraph
open ClassFile (ClassBuilder)

/-! ### What becomes of the units -/

/-- The failures of the units that cannot be decoded. -/
def undecoded (units : List ClassUnit) : List DecodeFailure :=
  units.filterMap fun unit =>
    match ClassFile.decode unit.bytes with
    | .error error => some { id := unit.id, error }
    | .ok _ => none

/-- Every unit is folded, skipped or leaves a failure behind. -/
theorem analyzeUnit_counts (state : Analyzer × AnalysisOutcome) (unit : ClassUnit) :
    (analyzeUnit state unit).2.folded + (analyzeUnit state unit).2.skipped =
      state.2.folded + state.2.skipped + (AnalyzerCall.decoded [unit]).length ∧
    (analyzeUnit state unit).1.failures = state.1.failures ++ undecoded [unit] := by
  obtain ⟨analyzer, outcome⟩ := state
  cases decoded : ClassFile.decode unit.bytes with
  | error error => simp [analyzeUnit, AnalyzerCall.decoded, undecoded, decoded, Except.toOption]
  | ok record =>
    simp only [analyzeUnit, AnalyzerCall.decoded, undecoded, decoded, Except.toOption,
      List.filterMap_cons, List.filterMap_nil, List.length_singleton, List.append_nil]
    cases folded : analyzer.foldRecord record with
    | none => exact ⟨(Nat.add_assoc _ _ _).symm, rfl⟩
    | some result =>
      -- Folding a class changes the graph alone.
      have kept : result.1.failures = analyzer.failures := by
        rw [foldRecord] at folded
        split at folded
        · cases folded
        · obtain ⟨_, -, rfl⟩ := Option.map_eq_some_iff.mp folded
          rfl
      exact ⟨Nat.add_right_comm _ _ _, kept⟩

theorem analyzeUnits_counts (units : List ClassUnit) (state : Analyzer × AnalysisOutcome) :
    let after := units.foldl analyzeUnit state
    after.2.folded + after.2.skipped =
      state.2.folded + state.2.skipped + (AnalyzerCall.decoded units).length ∧
    after.1.failures = state.1.failures ++ undecoded units := by
  induction units generalizing state with
  | nil => exact ⟨rfl, (List.append_nil _).symm⟩
  | cons unit rest ih =>
    obtain ⟨counted, failed⟩ := analyzeUnit_counts state unit
    obtain ⟨total, failures⟩ := ih (analyzeUnit state unit)
    have brought : AnalyzerCall.decoded (unit :: rest) =
        AnalyzerCall.decoded [unit] ++ AnalyzerCall.decoded rest :=
      AnalyzerCall.decoded_append [unit] rest
    have left : undecoded (unit :: rest) = undecoded [unit] ++ undecoded rest :=
      List.filterMap_append (l := [unit])
    rw [List.foldl_cons, brought, left, List.length_append]
    exact ⟨by rw [total, counted, Nat.add_assoc], by rw [failures, failed, List.append_assoc]⟩

/-! ### Reports of graphs that agree -/

/-- Lists whose items have the same keys in the same order are related item by item. -/
private theorem forall₂_of_map_eq {α : Type} {related : α → α → Prop} (key : α → String)
    {items others : List α} (same : items.map key = others.map key)
    (alike : ∀ item ∈ items, ∀ other ∈ others, key item = key other → related item other) :
    List.Forall₂ related items others := by
  induction items generalizing others with
  | nil => simpa using same
  | cons item items ih =>
    cases others with
    | nil => simp at same
    | cons other others =>
      obtain ⟨first, rest⟩ := List.cons.inj same
      exact .cons (alike item List.mem_cons_self other List.mem_cons_self first)
        (ih rest fun one member another present =>
          alike one (List.mem_cons_of_mem item member) another (List.mem_cons_of_mem other present))

/-- What the entries of a report hold of the packages alone, in another order. -/
theorem map_packages_report_perm {α : Type} (analyzer : Analyzer) {read : PackageReport → α}
    {held : Package → α}
    (reads : ∀ index package, read (packageReport analyzer.graph index package) = held package) :
    (analyzer.report.packages.map read).Perm (analyzer.graph.packages.map held) := by
  have unsorted : (analyzer.graph.packages.zipIdx.map fun entry =>
      packageReport analyzer.graph entry.2 entry.1).map read = analyzer.graph.packages.map held := by
    conv_rhs => rw [← List.zipIdx_map_fst 0 analyzer.graph.packages]
    rw [List.map_map, List.map_map]
    exact List.map_congr_left fun entry _ => reads entry.2 entry.1
  exact unsorted ▸ (List.mergeSort_perm _ _).map _

/-- Every package of the graph is reported, once. -/
theorem names_report_perm (analyzer : Analyzer) :
    (analyzer.report.packages.map (·.name)).Perm analyzer.graph.packageNames :=
  analyzer.map_packages_report_perm fun _ _ => rfl

theorem names_report_sorted (analyzer : Analyzer) :
    (analyzer.report.packages.map (·.name)).Pairwise (· ≤ ·) := by
  have ascending := @List.pairwise_mergeSort PackageReport
    (fun one other => decide (one.name ≤ other.name))
    (by simpa using fun _ _ _ => String.le_trans) (by simpa using fun _ _ => String.le_total _ _)
    (analyzer.graph.packages.zipIdx.map fun entry =>
      packageReport analyzer.graph entry.2 entry.1)
  exact List.pairwise_map.mpr (ascending.imp of_decide_eq_true)

section Reports

variable {analyzer alike : Analyzer} {config : Config} {settings : AnalysisSettings}
  {declared : List String} {folded others : List OfferedClass}

/-- The account does not depend on the order of the classes that were folded, but for the order of the
classes in each package. -/
theorem Accounts.agreesByName (accounts : analyzer.Accounts config settings declared folded)
    (other : alike.Accounts config settings declared others) (perm : folded.Perm others) :
    analyzer.graph.AgreesByName alike.graph where
  names name := by simp only [accounts.names, other.names, perm.mem_iff]
  classes name := by
    rw [accounts.classes, other.classes]
    exact (perm.filter _).map _
  volatility name := by rw [accounts.volatility, other.volatility]
  depends source target := by
    have here := accounts.depends_iff source target
    have there := other.depends_iff source target
    simp only [perm.mem_iff] at here
    exact here.trans there.symm

variable (agrees : analyzer.graph.AgreesByName alike.graph)
  (wellFormed : analyzer.graph.WellFormed) (alikeWellFormed : alike.graph.WellFormed)

include agrees wellFormed alikeWellFormed

theorem packageReport_agrees {index other : Nat} {package counterpart : Package}
    (found : analyzer.graph.packages[index]? = some package)
    (otherFound : alike.graph.packages[other]? = some counterpart)
    (named : package.name = counterpart.name) :
    (packageReport analyzer.graph index package).Agrees
      (packageReport alike.graph other counterpart) := by
  have counterparts : analyzer.graph.Counterparts alike.graph index other := by
    refine ⟨(List.getElem?_eq_some_iff.mp found).1, (List.getElem?_eq_some_iff.mp otherFound).1, ?_⟩
    simp only [nameOf, found, otherFound, named]
  have metrics := agrees.metrics_eq wellFormed alikeWellFormed counterparts found otherFound named
  -- All numbers are computed from the metrics alone.
  refine ⟨named, ?_, ?_, ?_, ?_, ?_, ?_, ?_, ?_, ?_,
    agrees.efferentNames_perm wellFormed alikeWellFormed counterparts,
    agrees.afferentNames_perm wellFormed alikeWellFormed counterparts, ?_⟩
  case refine_10 =>
    simp only [packageReport, names, List.map_eq_nil_iff]
    exact agrees.path_eq_nil_iff wellFormed alikeWellFormed counterparts
  all_goals simp only [packageReport, metrics]

/-- Two reports list the same names in the same order. -/
theorem names_report_eq :
    analyzer.report.packages.map (·.name) = alike.report.packages.map (·.name) := by
  apply List.Perm.eq_of_pairwise (fun _ _ _ _ => String.le_antisymm) analyzer.names_report_sorted
    alike.names_report_sorted
  exact (analyzer.names_report_perm.trans
    (agrees.packageNames_perm wellFormed alikeWellFormed)).trans alike.names_report_perm.symm

theorem report_agrees (failures : analyzer.failures.Perm alike.failures) :
    analyzer.report.Agrees alike.report where
  totalClasses := agrees.classCount_eq wellFormed alikeWellFormed
  totalPackages := by
    simp only [report, size_eq_length_packageNames]
    exact (agrees.packageNames_perm wellFormed alikeWellFormed).length_eq
  containsCycles := by
    have groups := agrees.exists_group_names_iff wellFormed alikeWellFormed
    have none : analyzer.graph.cycleGroups = [] ↔ alike.graph.cycleGroups = [] := by
      simp only [List.eq_nil_iff_forall_not_mem]
      constructor
      · intro absent group member
        obtain ⟨other, present, -⟩ := (groups _).mpr ⟨group, member, rfl⟩
        exact absent other present
      · intro absent group member
        obtain ⟨other, present, -⟩ := (groups _).mp ⟨group, member, rfl⟩
        exact absent other present
    have same : analyzer.graph.cycleGroups.isEmpty = alike.graph.cycleGroups.isEmpty := by
      rw [Bool.eq_iff_iff, List.isEmpty_iff, List.isEmpty_iff, none]
    simp only [report, List.isEmpty_map, same]
  packages := by
    apply forall₂_of_map_eq (·.name) (names_report_eq agrees wellFormed alikeWellFormed)
    intro one member another present named
    obtain ⟨index, package, found, rfl⟩ := (analyzer.mem_packages_report one).mp member
    obtain ⟨other, counterpart, otherFound, rfl⟩ := (alike.mem_packages_report another).mp present
    exact packageReport_agrees agrees wellFormed alikeWellFormed found otherFound named
  cycleGroups := by
    ext members
    simpa only [report, List.mem_toFinset, List.map_map, List.mem_map, Function.comp_apply] using
      agrees.exists_group_names_iff wellFormed alikeWellFormed members
  failures := failures.map _

end Reports

/-- Whatever the order in which class files are given to a new analyzer, the report is the same but
for the order of names, groups and failures and for the paths of cycles, and as many classes are folded
and skipped. -/
theorem analyze_perm (config : Config) {units others : List ClassUnit} (perm : units.Perm others) :
    let run := (ofConfig config).analyze units
    let other := (ofConfig config).analyze others
    run.1.report.Agrees other.1.report ∧ run.2.folded = other.2.folded ∧
      run.2.skipped = other.2.skipped := by
  obtain ⟨accounts, folded⟩ := (accounts_ofConfig config).analyzeUnits units {}
  obtain ⟨otherAccounts, otherFolded⟩ := (accounts_ofConfig config).analyzeUnits others {}
  obtain ⟨total, failures⟩ := analyzeUnits_counts units (ofConfig config, {})
  obtain ⟨otherTotal, otherFailures⟩ := analyzeUnits_counts others (ofConfig config, {})
  have decoded : (AnalyzerCall.decoded units).Perm (AnalyzerCall.decoded others) := perm.filterMap _
  have kept := (decoded.map (OfferedClass.mk (.ofConfig config))).filter (·.isFolded)
  have agrees := accounts.agreesByName otherAccounts kept
  have failed : (ofConfig config).failures ++ undecoded units |>.Perm
      ((ofConfig config).failures ++ undecoded others) := (perm.filterMap _).append_left _
  rw [← failures, ← otherFailures] at failed
  have sameFolded := folded.trans ((congrArg _ kept.length_eq).trans otherFolded.symm)
  refine ⟨report_agrees agrees accounts.records.wellFormed otherAccounts.records.wellFormed failed,
    sameFolded, ?_⟩
  -- What is neither folded nor a failure is skipped.
  rw [decoded.length_eq, ← otherTotal] at total
  simp only [analyze] at sameFolded ⊢
  omega

/-- Two classes whose packages extend one another, between bytes that are no class files. -/
theorem analyze_perm_reversed :
    ∃ (config : Config) (units : List ClassUnit), units.Perm units.reverse ∧
      let run := (ofConfig config).analyze units
      let other := (ofConfig config).analyze units.reverse
      (run.1.report.Agrees other.1.report ∧ run.2.folded = other.2.folded ∧
        run.2.skipped = other.2.skipped) ∧
      run.2.folded = 2 ∧ run.1.report.failures.map (·.id) = ["empty", "cut"] ∧
      other.1.report.failures.map (·.id) = ["cut", "empty"] := by
  let one : ClassUnit := ⟨"One", ((ClassBuilder.extend "b/Other").run (.ofName "a/One")).2.build⟩
  let other : ClassUnit := ⟨"Other", ((ClassBuilder.extend "a/One").run (.ofName "b/Other")).2.build⟩
  let units : List ClassUnit := [⟨"empty", []⟩, one, ⟨"cut", [0xCA, 0xFE]⟩, other]
  have perm : units.Perm units.reverse := (List.reverse_perm units).symm
  exact ⟨{ ignore := ["java"] }, units, perm, analyze_perm _ perm, by decide +kernel,
    by decide +kernel, by decide +kernel⟩

end Analyzer

end PackageAudit
