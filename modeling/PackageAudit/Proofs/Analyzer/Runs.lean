import PackageAudit.Analyzer
import PackageAudit.Proofs.Graph.Contents
import Mathlib.Data.List.Induction
/-!
What a run of an analyzer makes of its calls.

Settings and classes come in one sequence of calls, and a class is judged by the settings in force
when it comes. Which classes are offered, and under which settings, is read off the calls without
looking at any graph. The graph is then an account of the classes that were folded: each call adds to
the account what its own classes add, and `run_determines_graph` reads off what follows for names,
classes, dependencies and volatilities.
-/

namespace PackageAudit

/-- What decides whether a class enters the graph, and under which names. -/
structure AnalysisSettings where
  filter : PackageFilter
  components : List String
  innerClasses : Bool

/-- A decoded class with the settings in force when it was offered. -/
structure OfferedClass where
  settings : AnalysisSettings
  record : ClassRecord

namespace OfferedClass

/-- A class is folded if the filter accepts its package, but not if it is an inner class while those
are switched off. -/
def isFolded (offered : OfferedClass) : Bool :=
  (offered.settings.innerClasses || !offered.record.isInnerClass) &&
    offered.settings.filter.accept offered.record.packageName

def owner (offered : OfferedClass) : String :=
  coalesce offered.settings.components offered.record.packageName

/-- What stands for the accepted references of the class. -/
def targets (offered : OfferedClass) : List String :=
  (offered.record.referencedPackages.filter offered.settings.filter.accept).map
    (coalesce offered.settings.components)

def requests (offered : OfferedClass) : List (String × String) :=
  offered.targets.map (offered.owner, ·)

theorem mem_targets (offered : OfferedClass) (name : String) :
    name ∈ offered.targets ↔ ∃ reference ∈ offered.record.referencedPackages,
      offered.settings.filter.accept reference = true ∧
        coalesce offered.settings.components reference = name := by
  simp only [targets, List.mem_map, List.mem_filter, and_assoc]

end OfferedClass

inductive AnalyzerCall where
  | setFilter (filter : PackageFilter)
  | setComponents (list : String)
  | setInnerClasses (analyzed : Bool)
  | addPackage (name : String)
  | analyze (units : List ClassUnit)
  | foldRecord (record : ClassRecord)

namespace AnalysisSettings

def ofConfig (config : Config) : AnalysisSettings :=
  ⟨config.filter, config.components, config.analyzeInnerClasses⟩

def after (settings : AnalysisSettings) : AnalyzerCall → AnalysisSettings
  | .setFilter filter => { settings with filter }
  | .setComponents list => { settings with components := Text.splitList list }
  | .setInnerClasses analyzed => { settings with innerClasses := analyzed }
  | .addPackage _ | .analyze _ | .foldRecord _ => settings

end AnalysisSettings

namespace AnalyzerCall

/-- The classes of the units that can be decoded. -/
def decoded (units : List ClassUnit) : List ClassRecord :=
  units.filterMap fun unit => (ClassFile.decode unit.bytes).toOption

theorem decoded_append (one other : List ClassUnit) :
    decoded (one ++ other) = decoded one ++ decoded other :=
  List.filterMap_append

/-- The classes that a call brings. -/
def records : AnalyzerCall → List ClassRecord
  | .analyze units => decoded units
  | .foldRecord record => [record]
  | .setFilter _ | .setComponents _ | .setInnerClasses _ | .addPackage _ => []

/-- The packages that a call creates up front. -/
def declared : AnalyzerCall → List String
  | .addPackage name => [name]
  | .setFilter _ | .setComponents _ | .setInnerClasses _ | .analyze _ | .foldRecord _ => []

/-- The classes that some calls bring, in order. -/
def offered (settings : AnalysisSettings) : List AnalyzerCall → List OfferedClass
  | [] => []
  | call :: calls => call.records.map (⟨settings, ·⟩) ++ offered (settings.after call) calls

def apply (analyzer : Analyzer) : AnalyzerCall → Analyzer
  | .setFilter filter => analyzer.setFilter filter
  | .setComponents list => analyzer.setComponents list
  | .setInnerClasses analyzed => analyzer.setInnerClasses analyzed
  | .addPackage name => (analyzer.addPackage name).1
  | .analyze units => (analyzer.analyze units).1
  | .foldRecord record => ((analyzer.foldRecord record).map (·.1)).getD analyzer

end AnalyzerCall

/-- The volatility that a configuration gives to a package, one if it gives none. -/
def Config.volatilityOf (config : Config) (name : String) : Nat :=
  (config.volatility.reverse.lookup name).getD 1

namespace Analyzer

/-- A new analyzer after some calls. -/
def run (config : Config) (calls : List AnalyzerCall) : Analyzer :=
  calls.foldl AnalyzerCall.apply (.ofConfig config)

def settings (analyzer : Analyzer) : AnalysisSettings :=
  ⟨analyzer.filter, analyzer.components, analyzer.analyzeInnerClasses⟩

/-! ### One class -/

theorem filterMap_graphName? (analyzer : Analyzer) (names : List String) :
    names.filterMap analyzer.graphName? =
      (names.filter analyzer.filter.accept).map (coalesce analyzer.components) := by
  induction names with
  | nil => rfl
  | cons name rest ih =>
    rw [List.filterMap_cons, List.filter_cons, graphName?, ih]
    cases analyzer.filter.accept name <;> rfl

/-- Both reasons to leave a class out are looked at, one after the other. -/
private theorem isFolded_eq (analyzer : Analyzer) (record : ClassRecord) :
    (OfferedClass.mk analyzer.settings record).isFolded =
      (!(!analyzer.analyzeInnerClasses && record.isInnerClass) &&
        analyzer.filter.accept record.packageName) := by
  simp only [OfferedClass.isFolded, settings, Bool.not_and, Bool.not_not]

/-- A class that is folded joins its owner, which comes to depend upon the targets of the class. -/
theorem foldRecord_of_isFolded {analyzer : Analyzer} {record : ClassRecord} {offered : OfferedClass}
    (same : offered = ⟨analyzer.settings, record⟩) (isFolded : offered.isFolded = true) :
    analyzer.foldRecord record =
      some ({ analyzer with
              graph := (analyzer.graph.foldInto offered.owner record offered.targets).1 },
        (analyzer.graph.foldInto offered.owner record offered.targets).2) := by
  subst same
  rw [isFolded_eq, Bool.and_eq_true, Bool.not_eq_true'] at isFolded
  obtain ⟨kept, accepted⟩ := isFolded
  have named : analyzer.graphName? record.packageName =
      some (coalesce analyzer.components record.packageName) := by
    rw [graphName?, if_pos accepted]
  simp only [foldRecord, kept, PackageGraph.foldMapped, named, filterMap_graphName?]
  rfl

theorem foldRecord_of_not_isFolded {analyzer : Analyzer} {record : ClassRecord}
    (leftOut : (OfferedClass.mk analyzer.settings record).isFolded = false) :
    analyzer.foldRecord record = none := by
  rw [isFolded_eq, Bool.and_eq_false_iff, Bool.not_eq_false'] at leftOut
  rw [foldRecord]
  rcases leftOut with inner | rejected
  · rw [if_pos inner]
  · split
    · rfl
    · rw [PackageGraph.foldMapped, graphName?, rejected]
      rfl

/-! ### The account of a run -/

/-- The graph of an analyzer holds what a configuration, packages created up front and the folded
classes put there, and nothing else. -/
structure Accounts (analyzer : Analyzer) (config : Config) (settings : AnalysisSettings)
    (declared : List String) (folded : List OfferedClass) : Prop where
  settings : analyzer.settings = settings
  allowSelf : analyzer.graph.allowSelf = config.allowSelfDependency
  records : analyzer.graph.Records (folded.flatMap OfferedClass.requests)
  names : ∀ name, name ∈ analyzer.graph.packageNames ↔
    name ∈ config.volatility.map Prod.fst ∨ name ∈ declared ∨
      ∃ offered ∈ folded, name = offered.owner ∨ name ∈ offered.targets
  classes : ∀ name, analyzer.graph.held (·.classes) name =
    (folded.filter (·.owner == name)).map (·.record)
  volatility : ∀ name, analyzer.graph.held (·.volatility) name = config.volatilityOf name

variable {analyzer : Analyzer} {config : Config} {settings : AnalysisSettings}
  {declared : List String} {folded : List OfferedClass}

theorem Accounts.fold (accounts : analyzer.Accounts config settings declared folded)
    (offered : OfferedClass) :
    { analyzer with
      graph := (analyzer.graph.foldInto offered.owner offered.record offered.targets).1
      : Analyzer }.Accounts config settings declared (folded ++ [offered]) := by
  have wellFormed := accounts.records.wellFormed
  refine ⟨accounts.settings, ?_, ?_, ?_, ?_, ?_⟩
  · exact (PackageGraph.foldInto_continues _ _ _ _).allowSelf.trans accounts.allowSelf
  · rw [List.flatMap_append, List.flatMap_singleton]
    exact accounts.records.foldInto offered.owner offered.record offered.targets
  · intro name
    rw [wellFormed.mem_packageNames_foldInto, accounts.names]
    simp only [List.mem_append, List.mem_singleton, or_and_right, exists_or, exists_eq_left,
      or_assoc]
  · intro name
    -- The class comes last under its owner, and under no other name.
    rw [wellFormed.classes_foldInto, accounts.classes, List.filter_append, List.map_append]
    by_cases same : name = offered.owner
    · simp [same]
    · simp [same, Ne.symm same]
  · intro name
    rw [PackageGraph.volatility_foldInto, accounts.volatility]

/-- A class is folded if it should be, and leaves nothing behind otherwise. -/
theorem Accounts.foldRecord (accounts : analyzer.Accounts config settings declared folded)
    (record : ClassRecord) :
    (((analyzer.foldRecord record).map (·.1)).getD analyzer).Accounts config settings declared
        (folded ++ [⟨settings, record⟩].filter (·.isFolded)) ∧
      (analyzer.foldRecord record).isSome = (OfferedClass.mk settings record).isFolded := by
  have inForce := accounts.settings
  cases isFolded : (OfferedClass.mk settings record).isFolded with
  | true =>
    rw [foldRecord_of_isFolded (by rw [inForce]) isFolded, List.filter_cons_of_pos isFolded]
    exact ⟨accounts.fold ⟨settings, record⟩, rfl⟩
  | false =>
    rw [foldRecord_of_not_isFolded (by rwa [inForce]),
      List.filter_cons_of_neg (by rw [isFolded]; exact Bool.false_ne_true), List.filter_nil,
      List.append_nil]
    exact ⟨accounts, rfl⟩

/-- The account is one of the graph alone. -/
theorem Accounts.congr {other : Analyzer} {later : AnalysisSettings}
    (accounts : analyzer.Accounts config settings declared folded)
    (sameGraph : other.graph = analyzer.graph) (inForce : other.settings = later) :
    other.Accounts config later declared folded := by
  refine ⟨inForce, ?_, ?_, ?_, ?_, ?_⟩ <;> rw [sameGraph]
  · exact accounts.allowSelf
  · exact accounts.records
  · exact accounts.names
  · exact accounts.classes
  · exact accounts.volatility

theorem analyzeUnit_of_ok {unit : ClassUnit} {record : ClassRecord}
    (decoded : ClassFile.decode unit.bytes = .ok record) (analyzer : Analyzer)
    (outcome : AnalysisOutcome) :
    (analyzeUnit (analyzer, outcome) unit).1 =
        ((analyzer.foldRecord record).map (·.1)).getD analyzer ∧
      (analyzeUnit (analyzer, outcome) unit).2.folded =
        outcome.folded + if (analyzer.foldRecord record).isSome then 1 else 0 := by
  simp only [analyzeUnit, decoded]
  cases analyzer.foldRecord record <;> exact ⟨rfl, rfl⟩

/-- A unit that cannot be decoded leaves only a failure behind. -/
theorem Accounts.analyzeUnit (accounts : analyzer.Accounts config settings declared folded)
    (unit : ClassUnit) (outcome : AnalysisOutcome) :
    let after := Analyzer.analyzeUnit (analyzer, outcome) unit
    let added := ((AnalyzerCall.decoded [unit]).map (OfferedClass.mk settings)).filter (·.isFolded)
    after.1.Accounts config settings declared (folded ++ added) ∧
      after.2.folded = outcome.folded + added.length := by
  cases decoded : ClassFile.decode unit.bytes with
  | error error =>
    have brings : AnalyzerCall.decoded [unit] = [] := by
      simp [AnalyzerCall.decoded, decoded, Except.toOption]
    simp only [brings, Analyzer.analyzeUnit, decoded, List.map_nil, List.filter_nil, List.append_nil]
    exact ⟨accounts.congr rfl accounts.settings, rfl⟩
  | ok record =>
    have brings : AnalyzerCall.decoded [unit] = [record] := by
      simp [AnalyzerCall.decoded, decoded, Except.toOption]
    obtain ⟨after, isFolded⟩ := accounts.foldRecord record
    obtain ⟨left, counted⟩ := analyzeUnit_of_ok decoded analyzer outcome
    simp only [brings, List.map_singleton]
    refine ⟨left ▸ after, ?_⟩
    rw [counted, isFolded, List.filter_singleton]
    cases (OfferedClass.mk settings record).isFolded <;> rfl

theorem Accounts.analyzeUnits (accounts : analyzer.Accounts config settings declared folded)
    (units : List ClassUnit) (outcome : AnalysisOutcome) :
    let after := units.foldl Analyzer.analyzeUnit (analyzer, outcome)
    let added := ((AnalyzerCall.decoded units).map (OfferedClass.mk settings)).filter (·.isFolded)
    after.1.Accounts config settings declared (folded ++ added) ∧
      after.2.folded = outcome.folded + added.length := by
  induction units generalizing analyzer outcome folded with
  | nil => exact ⟨by simpa [AnalyzerCall.decoded] using accounts, rfl⟩
  | cons unit rest ih =>
    obtain ⟨first, counted⟩ := accounts.analyzeUnit unit outcome
    obtain ⟨others, total⟩ := ih first (Analyzer.analyzeUnit (analyzer, outcome) unit).2
    simp only [← List.singleton_append (l := rest), AnalyzerCall.decoded_append, List.map_append,
      List.filter_append, List.length_append, ← List.append_assoc, ← Nat.add_assoc]
    exact ⟨others, by rw [← counted]; exact total⟩

theorem Accounts.addPackage (accounts : analyzer.Accounts config settings declared folded)
    (name : String) :
    (analyzer.addPackage name).1.Accounts config settings (declared ++ [name]) folded := by
  refine ⟨accounts.settings, ?_, accounts.records.declare name, ?_, ?_, ?_⟩
  · exact (PackageGraph.allowSelf_declare _ _).trans accounts.allowSelf
  · intro other
    refine (accounts.records.wellFormed.mem_packageNames_declare name other).trans ?_
    rw [accounts.names, List.mem_append, List.mem_singleton, or_assoc, or_assoc, or_assoc,
      or_comm (a := other = name)]
  · exact fun other => (PackageGraph.uncoupled_classes.held_declare _ _ _).trans
      (accounts.classes other)
  · exact fun other => (PackageGraph.uncoupled_volatility.held_declare _ _ _).trans
      (accounts.volatility other)

/-- A call that brings no class and creates no package only changes settings. -/
theorem Accounts.configure {other : Analyzer}
    (accounts : analyzer.Accounts config settings declared folded) {call : AnalyzerCall}
    (brings : call.records = []) (creates : call.declared = [])
    (sameGraph : other.graph = analyzer.graph)
    (inForce : other.settings = analyzer.settings.after call) :
    other.Accounts config (settings.after call) (declared ++ call.declared)
      (folded ++ (call.records.map (OfferedClass.mk settings)).filter (·.isFolded)) := by
  rw [brings, creates, List.map_nil, List.filter_nil, List.append_nil, List.append_nil]
  exact accounts.congr sameGraph (accounts.settings ▸ inForce)

theorem Accounts.apply (accounts : analyzer.Accounts config settings declared folded)
    (call : AnalyzerCall) :
    (call.apply analyzer).Accounts config (settings.after call) (declared ++ call.declared)
      (folded ++ (call.records.map (OfferedClass.mk settings)).filter (·.isFolded)) := by
  cases call with
  | setFilter filter => exact accounts.configure rfl rfl rfl rfl
  | setComponents list => exact accounts.configure rfl rfl rfl rfl
  | setInnerClasses analyzed => exact accounts.configure rfl rfl rfl rfl
  | addPackage name =>
    rw [AnalyzerCall.records, List.map_nil, List.filter_nil, List.append_nil]
    exact accounts.addPackage name
  | analyze units =>
    rw [AnalyzerCall.declared, List.append_nil]
    exact (accounts.analyzeUnits units {}).1
  | foldRecord record =>
    rw [AnalyzerCall.declared, List.append_nil]
    exact (accounts.foldRecord record).1

theorem Accounts.applyAll (accounts : analyzer.Accounts config settings declared folded)
    (calls : List AnalyzerCall) :
    (calls.foldl AnalyzerCall.apply analyzer).Accounts config
      (calls.foldl AnalysisSettings.after settings) (declared ++ calls.flatMap AnalyzerCall.declared)
      (folded ++ (AnalyzerCall.offered settings calls).filter (·.isFolded)) := by
  induction calls generalizing analyzer settings declared folded with
  | nil => simpa [AnalyzerCall.offered] using accounts
  | cons call rest ih =>
    have later := ih (accounts.apply call)
    simpa only [List.foldl_cons, List.flatMap_cons, AnalyzerCall.offered, List.filter_append,
      List.append_assoc] using later

/-- A later entry for a name stands over an earlier one. -/
private theorem lookup_reverse_concat (entries : List (String × Nat)) (entry : String × Nat)
    (name : String) : ((entries ++ [entry]).reverse.lookup name).getD 1 =
      if name = entry.1 then entry.2 else (entries.reverse.lookup name).getD 1 := by
  rw [List.reverse_append, List.reverse_singleton, List.singleton_append, List.lookup_cons]
  by_cases same : name = entry.1
  · simp [same]
  · simp [same, beq_false_of_ne same]

theorem accounts_ofConfig (config : Config) :
    (ofConfig config).Accounts config (.ofConfig config) [] [] := by
  obtain ⟨ignore, components, innerClasses, entries, allowSelf⟩ := config
  -- A configuration is only read once, but its entries one after the other.
  induction entries using List.reverseRecOn with
  | nil =>
    exact ⟨rfl, rfl, PackageGraph.records_empty allowSelf, fun name => by simp [ofConfig,
      PackageGraph.empty, PackageGraph.packageNames], fun _ => rfl, fun _ => rfl⟩
  | append_singleton entries entry ih =>
    have wellFormed := ih.records.wellFormed
    have graph : (ofConfig ⟨ignore, components, innerClasses, entries ++ [entry], allowSelf⟩).graph =
        ((ofConfig ⟨ignore, components, innerClasses, entries, allowSelf⟩).graph.setVolatility
          entry.1 entry.2).1 := by
      simp only [ofConfig, List.foldl_append, List.foldl_cons, List.foldl_nil]
    refine ⟨rfl, ?_, ?_, ?_, ?_, ?_⟩ <;> rw [graph]
    · exact (PackageGraph.allowSelf_declare _ _).trans ih.allowSelf
    · exact ih.records.setVolatility entry.1 entry.2
    · intro name
      rw [wellFormed.mem_packageNames_setVolatility, ih.names]
      simp only [List.map_append, List.mem_append, List.map_singleton, List.mem_singleton,
        List.not_mem_nil, false_and, exists_false, or_false]
    · exact fun name => (PackageGraph.classes_setVolatility _ _ _ _).trans (ih.classes name)
    · intro name
      rw [wellFormed.volatility_setVolatility, ih.volatility, Config.volatilityOf,
        Config.volatilityOf, lookup_reverse_concat]

theorem accounts_run (config : Config) (calls : List AnalyzerCall) :
    (run config calls).Accounts config (calls.foldl AnalysisSettings.after (.ofConfig config))
      (calls.flatMap AnalyzerCall.declared)
      ((AnalyzerCall.offered (.ofConfig config) calls).filter (·.isFolded)) := by
  have accounts := (accounts_ofConfig config).applyAll calls
  rwa [List.nil_append, List.nil_append] at accounts

theorem Accounts.depends_iff (accounts : analyzer.Accounts config settings declared folded)
    (source target : String) :
    (∃ sourceIndex targetIndex, analyzer.graph.indexOf? source = some sourceIndex ∧
      analyzer.graph.indexOf? target = some targetIndex ∧
      targetIndex ∈ analyzer.graph.efferents sourceIndex) ↔
    (∃ offered ∈ folded, offered.owner = source ∧ target ∈ offered.targets) ∧
      (source ≠ target ∨ config.allowSelfDependency = true) := by
  rw [accounts.records.depends_iff, mem_requestedTargets, isAllowed, Bool.or_eq_true,
    bne_iff_ne, accounts.allowSelf, or_comm]
  apply and_congr_left
  intro _
  -- The requests of a class pair its owner with each of its targets.
  simp only [List.mem_flatMap, OfferedClass.requests, List.mem_map, Prod.mk.injEq]
  constructor
  · rintro ⟨offered, member, name, depends, rfl, rfl⟩
    exact ⟨offered, member, rfl, depends⟩
  · rintro ⟨offered, member, rfl, depends⟩
    exact ⟨offered, member, target, depends, rfl, rfl⟩

/-- The graph after a run is determined by the classes that were folded. These are the classes that
were decoded or given, in order, but for inner classes while those are switched off and classes whose
package the filter in force rejects. Each joins what stands for its package, which comes to depend
upon what stands for the references that the filter accepts. -/
theorem run_determines_graph (config : Config) (calls : List AnalyzerCall) :
    let graph := (run config calls).graph
    let settings := calls.foldl AnalysisSettings.after (.ofConfig config)
    let folded := (AnalyzerCall.offered (.ofConfig config) calls).filter (·.isFolded)
    (∀ record, ((run config calls).foldRecord record).isSome =
      (OfferedClass.mk settings record).isFolded) ∧
    (∀ units, ((run config calls).analyze units).2.folded =
      (((AnalyzerCall.decoded units).map (OfferedClass.mk settings)).filter (·.isFolded)).length) ∧
    (∀ name package, graph.package? name = some package →
      package.classes = (folded.filter (·.owner == name)).map (·.record) ∧
      package.volatility = config.volatilityOf name) ∧
    (∀ source target,
      (∃ sourceIndex targetIndex, graph.indexOf? source = some sourceIndex ∧
        graph.indexOf? target = some targetIndex ∧ targetIndex ∈ graph.efferents sourceIndex) ↔
      (∃ offered ∈ folded, coalesce offered.settings.components offered.record.packageName = source ∧
        ∃ reference ∈ offered.record.referencedPackages,
          offered.settings.filter.accept reference = true ∧
          coalesce offered.settings.components reference = target) ∧
        (source ≠ target ∨ config.allowSelfDependency = true)) ∧
    (∀ name, (graph.package? name).isSome = true ↔
      name ∈ config.volatility.map Prod.fst ∨ name ∈ calls.flatMap AnalyzerCall.declared ∨
      ∃ offered ∈ folded, name = coalesce offered.settings.components offered.record.packageName ∨
        ∃ reference ∈ offered.record.referencedPackages,
          offered.settings.filter.accept reference = true ∧
          coalesce offered.settings.components reference = name) := by
  have accounts := accounts_run config calls
  refine ⟨fun record => (accounts.foldRecord record).2, ?_, ?_, ?_, ?_⟩
  · intro units
    rw [Analyzer.analyze, (accounts.analyzeUnits units {}).2, Nat.zero_add]
  · intro name package found
    rw [← accounts.classes, ← accounts.volatility]
    exact ⟨(PackageGraph.held_of_package? _ found).symm, (PackageGraph.held_of_package? _ found).symm⟩
  · intro source target
    rw [accounts.depends_iff]
    simp only [OfferedClass.mem_targets, OfferedClass.owner]
  · intro name
    rw [accounts.records.wellFormed.package?_isSome_iff, accounts.names]
    simp only [OfferedClass.mem_targets, OfferedClass.owner]

/-- Between two classes of one package the components are dropped and the filter is opened, so the
package enters under its component first and under its own name later. A unit that cannot be decoded
and an inner class leave nothing behind. -/
theorem run_determines_graph_across_settings :
    ∃ (config : Config) (calls : List AnalyzerCall) (one other : ClassRecord),
      let graph := (run config calls).graph
      (∀ package, graph.package? "app" = some package → package.classes = [one]) ∧
      (∀ package, graph.package? "app.ui" = some package → package.classes = [other]) ∧
      (∀ package, graph.package? "core" = some package →
        package.classes = [] ∧ package.volatility = 3) ∧
      (∃ source target, graph.indexOf? "app" = some source ∧ graph.indexOf? "core" = some target ∧
        target ∈ graph.efferents source) ∧
      (¬∃ source target, graph.indexOf? "app" = some source ∧ graph.indexOf? "app" = some target ∧
        target ∈ graph.efferents source) ∧
      (graph.package? "log").isSome = true := by
  let config : Config := { ignore := ["log"], components := ["app"], volatility := [("core", 3)] }
  let one : ClassRecord := ⟨"app.ui.One", "app.ui", none, false, ["app.db", "core", "log"]⟩
  let inner : ClassRecord := ⟨"app.ui.One$1", "app.ui", none, false, ["app.db"]⟩
  let other : ClassRecord := ⟨"app.ui.Other", "app.ui", none, true, ["log"]⟩
  let calls : List AnalyzerCall := [.analyze [⟨"broken", []⟩], .foldRecord one, .setComponents "",
    .setFilter .all, .setInnerClasses false, .foldRecord inner, .foldRecord other]
  obtain ⟨-, -, held, depends, exist⟩ := run_determines_graph config calls
  refine ⟨config, calls, one, other, ?_, ?_, ?_, ?_, ?_, ?_⟩
  · exact fun package found => (held "app" package found).1.trans (by decide +kernel)
  · exact fun package found => (held "app.ui" package found).1.trans (by decide +kernel)
  · intro package found
    obtain ⟨classes, volatility⟩ := held "core" package found
    exact ⟨classes.trans (by decide +kernel), volatility.trans (by decide +kernel)⟩
  · exact (depends "app" "core").mpr (by decide +kernel)
  · intro present
    exact absurd ((depends "app" "app").mp present).2 (by decide +kernel)
  · exact (exist "log").mpr (.inr (.inr (by decide +kernel)))

end Analyzer

end PackageAudit
