import PackageAudit.Proofs.Analyzer.InputOrder
/-!
What a batch of units adds up to.

The settings do not change during a batch, so each unit is judged by itself: it fails, is left out or
is folded. A batch is therefore known by three lists, the failures and the classes left out and folded,
in the order of the units, and `analyze_eq` says that the graph, the failures and all counters are
computed from these. Lists of parts are parts of lists, which is why batches add up however they are
split.
-/

namespace PackageAudit

/-! ### The number of classes in a graph -/

namespace PackageGraph

variable {graph : PackageGraph}

theorem classCount_eq_sum (graph : PackageGraph) :
    graph.classCount = (graph.packages.map (·.classes.length)).sum := by
  rw [classCount, List.sum, List.foldr_map]

/-- What a change does to the number of classes of one package happens to the list of numbers. -/
private theorem classLengths_modify (graph : PackageGraph) (index : Nat)
    (change : Package → Package) (effect : Nat → Nat)
    (changes : ∀ package, (change package).classes.length = effect package.classes.length) :
    (graph.modify index change).packages.map (·.classes.length) =
      (graph.packages.map (·.classes.length)).modify index effect := by
  apply List.ext_getElem?
  intro other
  simp only [modify, List.getElem?_map, List.getElem?_modify]
  cases graph.packages[other]? with
  | none => rfl
  | some package =>
    by_cases same : index = other
    · simp [same, changes]
    · simp [same]

theorem classCount_modify (graph : PackageGraph) (index : Nat) (change : Package → Package)
    (keeps : ∀ package, (change package).classes = package.classes) :
    (graph.modify index change).classCount = graph.classCount := by
  rw [classCount_eq_sum, classLengths_modify graph index change id fun package =>
    congrArg List.length (keeps package), List.modify_id, classCount_eq_sum]

theorem classCount_declare (graph : PackageGraph) (name : String) :
    (graph.declare name).1.classCount = graph.classCount := by
  unfold declare
  split
  · rfl
  · simp [classCount_eq_sum]

theorem classCount_link (graph : PackageGraph) (source target : Nat) :
    (graph.link source target).1.classCount = graph.classCount := by
  rcases link_cases graph source target with ⟨-, after⟩ | ⟨-, after⟩ <;> rw [after]
  rw [classCount_modify _ _ (·.addAfferent source) fun _ => rfl,
    classCount_modify _ _ (·.addEfferent target) fun _ => rfl]

theorem classCount_addClass (graph : PackageGraph) {index : Nat} (inRange : index < graph.size)
    (record : ClassRecord) : (graph.addClass index record).classCount = graph.classCount + 1 := by
  -- The sum of the numbers is split at the index, where the one that grows stands.
  have inLengths : index < (graph.packages.map (·.classes.length)).length := by
    rwa [List.length_map]
  rw [classCount_eq_sum, addClass, classLengths_modify graph index (·.addClass record) (· + 1)
    fun package => List.length_append, List.modify_eq_take_cons_drop inLengths, classCount_eq_sum]
  conv_rhs => rw [← List.take_append_drop index (graph.packages.map (·.classes.length)),
    List.drop_eq_getElem_cons inLengths]
  simp only [List.sum_append, List.sum_cons]
  omega

theorem classCount_foldl_linkNamed (index : Nat) (targets : List String) (graph : PackageGraph) :
    (targets.foldl (·.linkNamed index ·) graph).classCount = graph.classCount := by
  induction targets generalizing graph with
  | nil => rfl
  | cons target rest ih =>
    rw [List.foldl_cons, ih, linkNamed, classCount_link, classCount_declare]

theorem WellFormed.classCount_foldInto (wellFormed : graph.WellFormed) (owner : String)
    (record : ClassRecord) (targets : List String) :
    (graph.foldInto owner record targets).1.classCount = graph.classCount + 1 := by
  rw [foldInto, classCount_foldl_linkNamed,
    classCount_addClass _ (lt_size_of_getElem? (wellFormed.declared owner)), classCount_declare]

end PackageGraph

/-! ### One batch -/

/-- The outcome of two batches, one after the other. -/
def AnalysisOutcome.followedBy (first second : AnalysisOutcome) : AnalysisOutcome where
  folded := first.folded + second.folded
  skipped := first.skipped + second.skipped
  failures := first.failures ++ second.failures

theorem AnalysisOutcome.followedBy_assoc (first second third : AnalysisOutcome) :
    (first.followedBy second).followedBy third = first.followedBy (second.followedBy third) := by
  simp only [followedBy, Nat.add_assoc, List.append_assoc]

/-- Whether a unit holds a class that is folded under the settings. -/
def AnalysisSettings.takes (settings : AnalysisSettings) (unit : ClassUnit) : Bool :=
  match ClassFile.decode unit.bytes with
  | .ok record => (OfferedClass.mk settings record).isFolded
  | .error _ => false

namespace Analyzer

open ClassFile (ClassBuilder)

/-- The classes of a batch, each with the settings of the analyzer. -/
def offered (analyzer : Analyzer) (units : List ClassUnit) : List OfferedClass :=
  (AnalyzerCall.decoded units).map (OfferedClass.mk analyzer.settings)

def foldClass (graph : PackageGraph) (offered : OfferedClass) : PackageGraph :=
  (graph.foldInto offered.owner offered.record offered.targets).1

theorem offered_append (analyzer : Analyzer) (first second : List ClassUnit) :
    analyzer.offered (first ++ second) = analyzer.offered first ++ analyzer.offered second := by
  rw [offered, AnalyzerCall.decoded_append, List.map_append, offered, offered]

theorem undecoded_append (first second : List ClassUnit) :
    undecoded (first ++ second) = undecoded first ++ undecoded second :=
  List.filterMap_append

/-- What a batch leaves behind. -/
def afterBatch (analyzer : Analyzer) (units : List ClassUnit) : Analyzer :=
  { analyzer with
    graph := ((analyzer.offered units).filter (·.isFolded)).foldl foldClass analyzer.graph
    failures := analyzer.failures ++ undecoded units }

def batchOutcome (analyzer : Analyzer) (units : List ClassUnit) : AnalysisOutcome where
  folded := ((analyzer.offered units).filter (·.isFolded)).length
  skipped := ((analyzer.offered units).filter (! ·.isFolded)).length
  failures := undecoded units

/-- A unit fails, is folded or is left out. -/
theorem analyzeUnit_eq (analyzer : Analyzer) (outcome : AnalysisOutcome) (unit : ClassUnit) :
    analyzeUnit (analyzer, outcome) unit =
      (analyzer.afterBatch [unit], outcome.followedBy (analyzer.batchOutcome [unit])) := by
  cases decoded : ClassFile.decode unit.bytes with
  | error error =>
    have offers : analyzer.offered [unit] = [] := by
      simp [offered, AnalyzerCall.decoded, decoded, Except.toOption]
    simp [analyzeUnit, decoded, afterBatch, batchOutcome, offers, undecoded,
      AnalysisOutcome.followedBy]
  | ok record =>
    have offers : analyzer.offered [unit] = [⟨analyzer.settings, record⟩] := by
      simp [offered, AnalyzerCall.decoded, decoded, Except.toOption]
    cases isFolded : (OfferedClass.mk analyzer.settings record).isFolded with
    | true =>
      simp [analyzeUnit, decoded, foldRecord_of_isFolded rfl isFolded, afterBatch, batchOutcome,
        offers, isFolded, undecoded, AnalysisOutcome.followedBy, foldClass]
    | false =>
      simp [analyzeUnit, decoded, foldRecord_of_not_isFolded isFolded, afterBatch, batchOutcome,
        offers, isFolded, undecoded, AnalysisOutcome.followedBy]

/-- The settings of an analyzer outlast a batch, so the next batch is judged by the same. -/
theorem afterBatch_append (analyzer : Analyzer) (first second : List ClassUnit) :
    analyzer.afterBatch (first ++ second) = (analyzer.afterBatch first).afterBatch second := by
  have later : (analyzer.afterBatch first).offered second = analyzer.offered second := rfl
  rw [afterBatch, afterBatch, later]
  simp only [afterBatch, offered_append, undecoded_append, List.filter_append, List.foldl_append,
    List.append_assoc]

theorem batchOutcome_append (analyzer : Analyzer) (first second : List ClassUnit) :
    analyzer.batchOutcome (first ++ second) =
      (analyzer.batchOutcome first).followedBy
        ((analyzer.afterBatch first).batchOutcome second) := by
  have later : (analyzer.afterBatch first).offered second = analyzer.offered second := rfl
  simp only [batchOutcome, AnalysisOutcome.followedBy, later, offered_append, undecoded_append,
    List.filter_append, List.length_append]

theorem foldl_analyzeUnit_eq (units : List ClassUnit) (analyzer : Analyzer)
    (outcome : AnalysisOutcome) :
    units.foldl analyzeUnit (analyzer, outcome) =
      (analyzer.afterBatch units, outcome.followedBy (analyzer.batchOutcome units)) := by
  induction units generalizing analyzer outcome with
  | nil =>
    simp [afterBatch, batchOutcome, offered, AnalyzerCall.decoded, undecoded,
      AnalysisOutcome.followedBy]
  | cons unit rest ih =>
    -- The first unit is a batch of its own, and the others are judged by the same settings.
    rw [List.foldl_cons, analyzeUnit_eq, ih, ← afterBatch_append, List.singleton_append]
    simp only [Prod.mk.injEq, true_and]
    rw [← List.singleton_append (l := rest), batchOutcome_append, AnalysisOutcome.followedBy_assoc]

/-- A batch is known by its failures and the classes it leaves out and folds. -/
theorem analyze_eq (analyzer : Analyzer) (units : List ClassUnit) :
    analyzer.analyze units = (analyzer.afterBatch units, analyzer.batchOutcome units) := by
  rw [analyze, foldl_analyzeUnit_eq, AnalysisOutcome.followedBy]
  simp only [Nat.zero_add, List.nil_append]

theorem analyze_append (analyzer : Analyzer) (first second : List ClassUnit) :
    analyzer.analyze (first ++ second) =
      (((analyzer.analyze first).1.analyze second).1,
        (analyzer.analyze first).2.followedBy ((analyzer.analyze first).1.analyze second).2) := by
  simp only [analyze_eq, afterBatch_append, batchOutcome_append]

/-! ### Counting -/

theorem length_decoded_add_undecoded (units : List ClassUnit) :
    (AnalyzerCall.decoded units).length + (undecoded units).length = units.length := by
  induction units with
  | nil => rfl
  | cons unit rest ih =>
    rw [AnalyzerCall.decoded, undecoded] at ih ⊢
    cases decoded : ClassFile.decode unit.bytes with
    | error error =>
      simp only [List.filterMap_cons, decoded, Except.toOption, List.length_cons, ← ih,
        Nat.add_assoc]
    | ok record =>
      simp only [List.filterMap_cons, decoded, Except.toOption, List.length_cons, ← ih]
      omega

/-- Every unit is folded, skipped or leaves a failure behind. -/
theorem batchOutcome_total (analyzer : Analyzer) (units : List ClassUnit) :
    (analyzer.batchOutcome units).folded + (analyzer.batchOutcome units).skipped +
      (analyzer.batchOutcome units).failures.length = units.length := by
  have parts := List.length_eq_length_filter_add (l := analyzer.offered units) (·.isFolded)
  rw [batchOutcome, ← parts, offered, List.length_map]
  exact length_decoded_add_undecoded units

theorem classCount_foldl_foldClass {graph : PackageGraph} {requests : List (String × String)}
    (records : graph.Records requests) (folded : List OfferedClass) :
    (folded.foldl foldClass graph).classCount = graph.classCount + folded.length := by
  induction folded generalizing graph requests with
  | nil => rfl
  | cons offered rest ih =>
    -- A well-formed graph counts a class once, as its owner has one entry.
    have next := records.foldInto offered.owner offered.record offered.targets
    rw [List.foldl_cons, foldClass, ih next, records.wellFormed.classCount_foldInto,
      List.length_cons, Nat.add_assoc, Nat.add_comm 1]

/-! ### Units that leave nothing in the graph -/

theorem filter_offered_eq_nil {analyzer : Analyzer} {unit : ClassUnit}
    (leftOut : analyzer.settings.takes unit = false) :
    (analyzer.offered [unit]).filter (·.isFolded) = [] := by
  rw [AnalysisSettings.takes] at leftOut
  cases decoded : ClassFile.decode unit.bytes with
  | error error => simp [offered, AnalyzerCall.decoded, decoded, Except.toOption]
  | ok record =>
    rw [decoded] at leftOut
    simpa [offered, AnalyzerCall.decoded, decoded, Except.toOption] using leftOut

theorem filter_offered_takes (analyzer : Analyzer) (units : List ClassUnit) :
    (analyzer.offered (units.filter analyzer.settings.takes)).filter (·.isFolded) =
      (analyzer.offered units).filter (·.isFolded) := by
  induction units with
  | nil => rfl
  | cons unit rest ih =>
    have parts : (analyzer.offered (unit :: rest)).filter (·.isFolded) =
        (analyzer.offered [unit]).filter (·.isFolded) ++
          (analyzer.offered rest).filter (·.isFolded) := by
      rw [← List.filter_append, ← offered_append, List.singleton_append]
    rw [parts, ← ih, List.filter_cons]
    cases taken : analyzer.settings.takes unit with
    | true =>
      rw [if_pos rfl, ← List.singleton_append, offered_append, List.filter_append]
    | false =>
      rw [if_neg Bool.false_ne_true, filter_offered_eq_nil taken, List.nil_append]

/-- A unit is taken if its class decodes and would be folded. -/
theorem takes_iff (analyzer : Analyzer) (unit : ClassUnit) :
    analyzer.settings.takes unit = true ↔ ∃ record, ClassFile.decode unit.bytes = .ok record ∧
      (analyzer.foldRecord record).isSome = true := by
  rw [AnalysisSettings.takes]
  cases ClassFile.decode unit.bytes with
  | error error => simp
  | ok record =>
    simp only [Except.ok.injEq, exists_eq_left']
    cases isFolded : (OfferedClass.mk analyzer.settings record).isFolded with
    | true => simp [foldRecord_of_isFolded rfl isFolded]
    | false => simp [foldRecord_of_not_isFolded isFolded]

/-- A batch adds up. Its graph is that of the units that are taken alone; each unit is folded, skipped
or fails, each folded class is counted in the graph, and each failure is recorded with its unit, in
order. A class that is left out leaves the analyzer as it is, and two batches, one after the other, are
one batch. -/
theorem analyze_adds_up (config : Config) (calls : List AnalyzerCall) (units : List ClassUnit) :
    let analyzer := run config calls
    let after := (analyzer.analyze units).1
    let outcome := (analyzer.analyze units).2
    after.graph = (analyzer.analyze (units.filter analyzer.settings.takes)).1.graph ∧
    (∀ unit, analyzer.settings.takes unit = true ↔
      ∃ record, ClassFile.decode unit.bytes = .ok record ∧
        (analyzer.foldRecord record).isSome = true) ∧
    outcome.folded + outcome.skipped + outcome.failures.length = units.length ∧
    after.graph.classCount = analyzer.graph.classCount + outcome.folded ∧
    outcome.failures = undecoded units ∧
    after.failures = analyzer.failures ++ outcome.failures ∧
    (∀ record, analyzer.foldRecord record = none →
      (AnalyzerCall.foldRecord record).apply analyzer = analyzer ∧
      ∀ unit : ClassUnit, ClassFile.decode unit.bytes = .ok record →
        analyzer.analyze [unit] = (analyzer, { skipped := 1 })) ∧
    ∀ first second, units = first ++ second →
      let between := analyzer.analyze first
      let last := between.1.analyze second
      last.1 = after ∧ between.2.followedBy last.2 = outcome := by
  intro analyzer after outcome
  have records := (accounts_run config calls).records
  have batch : analyzer.analyze units = (analyzer.afterBatch units, analyzer.batchOutcome units) :=
    analyzer.analyze_eq units
  have left : after = analyzer.afterBatch units := congrArg Prod.fst batch
  have counted : outcome = analyzer.batchOutcome units := congrArg Prod.snd batch
  refine ⟨?_, analyzer.takes_iff, ?_, ?_, ?_, ?_, ?_, ?_⟩
  · rw [left, analyze_eq]
    simp only [afterBatch, filter_offered_takes]
  · rw [counted]
    exact analyzer.batchOutcome_total units
  · rw [left, counted]
    exact classCount_foldl_foldClass records _
  · rw [counted]
    rfl
  · rw [left, counted]
    rfl
  · intro record leftOut
    refine ⟨by rw [AnalyzerCall.apply, leftOut]; rfl, fun unit decoded => ?_⟩
    simp only [analyze, List.foldl_cons, List.foldl_nil, analyzeUnit, decoded, leftOut]
  · rintro first second rfl
    have split := analyzer.analyze_append first second
    exact ⟨(congrArg Prod.fst split).symm, (congrArg Prod.snd split).symm⟩

/-- A batch of bytes that are no class file, an inner class while those are switched off and a class
that is folded, split before the last. -/
theorem analyze_adds_up_split :
    ∃ (config : Config) (units first second : List ClassUnit) (inner : ClassUnit)
      (record : ClassRecord),
      let analyzer := run config []
      let outcome := (analyzer.analyze units).2
      let between := analyzer.analyze first
      units = first ++ second ∧ inner ∈ units ∧ ClassFile.decode inner.bytes = .ok record ∧
      analyzer.foldRecord record = none ∧
      analyzer.analyze [inner] = (analyzer, { skipped := 1 }) ∧
      (between.1.analyze second).1 = (analyzer.analyze units).1 ∧
      (outcome.folded, outcome.skipped, outcome.failures.map (·.id)) = (1, 1, ["cut"]) ∧
      (analyzer.analyze units).1.graph.classCount = 1 := by
  let config : Config := { analyzeInnerClasses := false }
  let inner : ClassUnit :=
    ⟨"One$1", ((ClassBuilder.extend "a/One").run (.ofName "a/One$1")).2.build⟩
  let outer : ClassUnit := ⟨"One", ((ClassBuilder.extend "b/Other").run (.ofName "a/One")).2.build⟩
  let record : ClassRecord := ⟨"a.One$1", "a", none, false, ["java.lang"]⟩
  have decoded : ClassFile.decode inner.bytes = .ok record := by decide +kernel
  have leftOut : (run config []).foldRecord record = none := by decide +kernel
  let units : List ClassUnit := [⟨"cut", [0xCA, 0xFE]⟩, inner, outer]
  have counted : (((run config []).analyze units).2.folded,
      ((run config []).analyze units).2.skipped,
      ((run config []).analyze units).2.failures.map (·.id)) = (1, 1, ["cut"]) := by
    decide +kernel
  have fresh : (run config []).graph.classCount = 0 := by decide +kernel
  obtain ⟨-, -, -, classes, -, -, unchanged, splits⟩ := analyze_adds_up config [] units
  have total : ((run config []).analyze units).1.graph.classCount = 1 := by
    rw [classes, fresh, (Prod.mk.inj counted).1]
  have skipped := (unchanged record leftOut).2 inner decoded
  have same := (splits [⟨"cut", [0xCA, 0xFE]⟩, inner] [outer] rfl).1
  exact ⟨config, units, _, [outer], inner, record, rfl, .tail _ (.head _), decoded, leftOut,
    skipped, same, counted, total⟩

end Analyzer

end PackageAudit
