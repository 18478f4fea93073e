import PackageAudit.Proofs.Graph.WellFormed
/-!
What a graph records of the operations that built it.

A dependency is requested between two names. Whatever operations built a graph, its dependencies are
those requested so far and allowed, each list in the order of the first requests: `run_records`
states this for every run from an empty graph. Composed operations are followed down to the two that
matter, declaring a package and recording one dependency.
-/

namespace PackageAudit

inductive GraphOperation where
  | declare (name : String)
  | link (source target : Nat)
  | dependsUpon (source target : String)
  | addClass (index : Nat) (record : ClassRecord)
  | fold (record : ClassRecord)
  | foldMapped (map : String → Option String) (record : ClassRecord)
  | setVolatility (name : String) (volatility : Nat)

namespace GraphOperation

def apply (graph : PackageGraph) : GraphOperation → PackageGraph
  | .declare name => (graph.declare name).1
  | .link source target => (graph.link source target).1
  | .dependsUpon source target => (graph.dependsUpon source target).1
  | .addClass index record => graph.addClass index record
  | .fold record => (graph.fold record).1
  | .foldMapped map record => ((graph.foldMapped map record).map (·.1)).getD graph
  | .setVolatility name volatility => (graph.setVolatility name volatility).1

/-- The numbers given to an operation are those of packages in the graph. -/
def InGraph (graph : PackageGraph) : GraphOperation → Prop
  | .link source target => source < graph.size ∧ target < graph.size
  | .addClass index _ => index < graph.size
  | _ => True

/-- The dependencies an operation asks for, in order. -/
def requests (graph : PackageGraph) : GraphOperation → List (String × String)
  | .link source target => [(graph.nameOf source, graph.nameOf target)]
  | .dependsUpon source target => [(source, target)]
  | .fold record => record.referencedPackages.map (record.packageName, ·)
  | .foldMapped map record =>
    match map record.packageName with
    | some owner => (record.referencedPackages.filterMap map).map (owner, ·)
    | none => []
  | .declare _ | .addClass _ _ | .setVolatility _ _ => []

/-- A sequence of operations on an empty graph, the graph it leads to and all dependencies that were
requested on the way. -/
inductive Run (allowSelf : Bool) :
    List GraphOperation → PackageGraph → List (String × String) → Prop
  | empty : Run allowSelf [] (.empty allowSelf) []
  | step {operations : List GraphOperation} {graph : PackageGraph}
      {requests : List (String × String)} (operation : GraphOperation)
      (earlier : Run allowSelf operations graph requests) (inGraph : operation.InGraph graph) :
      Run allowSelf (operations ++ [operation]) (operation.apply graph)
        (requests ++ operation.requests graph)

end GraphOperation

def isAllowed (allowSelf : Bool) (request : String × String) : Bool :=
  allowSelf || request.1 != request.2

/-- One end of the allowed requests whose other end has a name, each where it first occurs. -/
def firstRequested (named wanted : String × String → String) (allowSelf : Bool)
    (requests : List (String × String)) (name : String) : List String :=
  (((requests.filter (isAllowed allowSelf)).filter (named · == name)).map wanted).eraseDups

/-- What a package depends upon by the requests. -/
def requestedTargets : Bool → List (String × String) → String → List String :=
  firstRequested Prod.fst Prod.snd

/-- What depends upon a package by the requests. -/
def requestedSources : Bool → List (String × String) → String → List String :=
  firstRequested Prod.snd Prod.fst

section Requested

variable (named wanted : String × String → String) (allowSelf : Bool)
  (requests : List (String × String))

theorem mem_firstRequested (name other : String) :
    other ∈ firstRequested named wanted allowSelf requests name ↔
      ∃ request ∈ requests, isAllowed allowSelf request = true ∧ named request = name ∧
        wanted request = other := by
  simp only [firstRequested, List.mem_eraseDups, List.mem_map, List.mem_filter, beq_iff_eq,
    and_assoc]

theorem mem_requestedTargets (source target : String) :
    target ∈ requestedTargets allowSelf requests source ↔
      (source, target) ∈ requests ∧ isAllowed allowSelf (source, target) = true := by
  rw [requestedTargets, mem_firstRequested]
  constructor
  · rintro ⟨request, member, allowed, rfl, rfl⟩
    exact ⟨member, allowed⟩
  · rintro ⟨member, allowed⟩
    exact ⟨(source, target), member, allowed, rfl, rfl⟩

theorem eraseDups_concat (names : List String) (name : String) :
    (names ++ [name]).eraseDups =
      if name ∈ names.eraseDups then names.eraseDups else names.eraseDups ++ [name] := by
  simp only [List.eraseDups_append, List.mem_eraseDups]
  by_cases old : name ∈ names <;> simp [List.removeAll, old, List.eraseDups_cons]

theorem firstRequested_concat (request : String × String) (name : String) :
    firstRequested named wanted allowSelf (requests ++ [request]) name =
      if name = named request ∧ isAllowed allowSelf request = true ∧
          wanted request ∉ firstRequested named wanted allowSelf requests name
      then firstRequested named wanted allowSelf requests name ++ [wanted request]
      else firstRequested named wanted allowSelf requests name := by
  simp only [firstRequested, List.filter_append, List.map_append]
  by_cases allowed : isAllowed allowSelf request = true
  · by_cases same : name = named request
    · have kept : ([request].filter (isAllowed allowSelf)).filter (named · == name) = [request] := by
        simp [allowed, same]
      rw [kept, List.map_singleton, eraseDups_concat]
      simp only [same, allowed, true_and, ite_not]
    · simp [allowed, same, beq_false_of_ne (Ne.symm same)]
  · simp [allowed]

/-- Nothing is requested of a name that no request holds. -/
theorem firstRequested_eq_nil (name : String)
    (unnamed : ∀ request ∈ requests, named request ≠ name) :
    firstRequested named wanted allowSelf requests name = [] := by
  rw [List.eq_nil_iff_forall_not_mem]
  intro other member
  obtain ⟨request, present, -, same, -⟩ := (mem_firstRequested _ _ _ _ _ _).mp member
  exact unnamed request present same

end Requested

namespace PackageGraph

/-- A later graph has the packages of an earlier one under their numbers, and its options. -/
structure Continues (later earlier : PackageGraph) : Prop where
  names : earlier.packageNames <+: later.packageNames
  allowSelf : later.allowSelf = earlier.allowSelf

theorem Continues.refl (graph : PackageGraph) : graph.Continues graph := ⟨List.prefix_rfl, rfl⟩

theorem Continues.trans {last later earlier : PackageGraph} (second : last.Continues later)
    (first : later.Continues earlier) : last.Continues earlier :=
  ⟨first.names.trans second.names, second.allowSelf.trans first.allowSelf⟩

theorem Continues.getElem? {later earlier : PackageGraph} (continues : later.Continues earlier)
    {index : Nat} {name : String} (named : earlier.packageNames[index]? = some name) :
    later.packageNames[index]? = some name := by
  obtain ⟨rest, same⟩ := continues.names
  rw [← same, List.getElem?_append_left (List.getElem?_eq_some_iff.mp named).1]
  exact named

theorem Continues.nameOf_eq {later earlier : PackageGraph} (continues : later.Continues earlier)
    {index : Nat} (inRange : index < earlier.size) : later.nameOf index = earlier.nameOf index :=
  nameOf_of_getElem? (continues.getElem? (packageNames_getElem? earlier index inRange))

theorem declare_continues (graph : PackageGraph) (name : String) :
    (graph.declare name).1.Continues graph :=
  ⟨packageNames_declare graph name ▸ List.prefix_append _ _, allowSelf_declare graph name⟩

theorem link_continues (graph : PackageGraph) (source target : Nat) :
    (graph.link source target).1.Continues graph :=
  ⟨packageNames_link ▸ List.prefix_rfl, allowSelf_link⟩

theorem modify_continues (graph : PackageGraph) (index : Nat) (change : Package → Package)
    (keepsName : ∀ package, (change package).name = package.name) :
    (graph.modify index change).Continues graph :=
  ⟨packageNames_modify graph index change keepsName ▸ List.prefix_rfl, rfl⟩

/-- The graph is well-formed and its dependencies are exactly those requested and allowed. -/
structure Records (graph : PackageGraph) (requests : List (String × String)) : Prop where
  wellFormed : graph.WellFormed
  efferents : ∀ index < graph.size, graph.efferentNames index =
    requestedTargets graph.allowSelf requests (graph.nameOf index)
  afferents : ∀ index < graph.size, graph.afferentNames index =
    requestedSources graph.allowSelf requests (graph.nameOf index)
  declared : ∀ request ∈ requests,
    request.1 ∈ graph.packageNames ∧ request.2 ∈ graph.packageNames

theorem names_congr {later earlier : PackageGraph} (continues : later.Continues earlier)
    (indices : List Nat) (inRange : ∀ index ∈ indices, index < earlier.size) :
    later.names indices = earlier.names indices :=
  List.map_congr_left fun index member => continues.nameOf_eq (inRange index member)

/-- A package that is new in a later graph bears a name that no request holds, so what is held for the
packages of the earlier graph, and nothing for others, accounts for the same requests. -/
private theorem Continues.account {later earlier : PackageGraph} (continues : later.Continues earlier)
    (wellFormed : later.WellFormed) {named wanted : String × String → String}
    {requests : List (String × String)}
    (declared : ∀ request ∈ requests, named request ∈ earlier.packageNames)
    {held : Nat → List Nat} (inRange : ∀ index, ∀ other ∈ held index, other < earlier.size)
    (beyond : ∀ index, earlier.size ≤ index → held index = [])
    (account : ∀ index < earlier.size, earlier.names (held index) =
      firstRequested named wanted earlier.allowSelf requests (earlier.nameOf index)) :
    ∀ index < later.size, later.names (held index) =
      firstRequested named wanted later.allowSelf requests (later.nameOf index) := by
  intro index indexInRange
  rw [continues.allowSelf]
  by_cases old : index < earlier.size
  · rw [continues.nameOf_eq old, ← account index old]
    exact names_congr continues _ (inRange index)
  · have new := Nat.le_of_not_lt old
    rw [beyond index new, firstRequested_eq_nil]
    · rfl
    · intro request member same
      obtain ⟨other, present⟩ := List.mem_iff_getElem?.mp (declared request member)
      have here := packageNames_getElem? later index indexInRange
      have there := continues.getElem? present
      rw [same] at there
      have equal : other = index :=
        (List.getElem?_inj (List.getElem?_eq_some_iff.mp there).1 wellFormed.names_nodup).mp
          (there.trans here.symm)
      have known := lt_size_of_getElem? present
      omega

/-- Changing nothing but names, of which new ones may follow, and counters keeps the account. -/
private theorem Records.of_continues {later earlier : PackageGraph}
    {requests : List (String × String)} (records : earlier.Records requests)
    (continues : later.Continues earlier) (wellFormed : later.WellFormed)
    (efferents : later.efferents = earlier.efferents)
    (afferents : later.afferents = earlier.afferents) : later.Records requests := by
  refine ⟨wellFormed, ?_, ?_, ?_⟩
  · simp only [efferentNames, efferents]
    exact continues.account wellFormed (fun request member => (records.declared request member).1)
      records.wellFormed.efferents_lt (efferents_of_size_le earlier) records.efferents
  · simp only [afferentNames, afferents]
    exact continues.account wellFormed (fun request member => (records.declared request member).2)
      records.wellFormed.afferents_lt (afferents_of_size_le earlier) records.afferents
  · intro request member
    obtain ⟨source, target⟩ := records.declared request member
    exact ⟨continues.names.subset source, continues.names.subset target⟩

theorem records_empty (allowSelf : Bool) : (empty allowSelf).Records [] := by
  refine ⟨⟨List.nodup_nil, ?_, ?_, ?_, ?_, ?_, ?_, ?_⟩, ?_, ?_, ?_⟩
  all_goals simp [empty, indexOf?, packageNames, PackageGraph.efferents, PackageGraph.afferents,
    size]

theorem Records.declare {graph : PackageGraph} {requests : List (String × String)}
    (records : graph.Records requests) (name : String) :
    (graph.declare name).1.Records requests :=
  records.of_continues (declare_continues graph name) (records.wellFormed.declare name)
    (efferents_declare graph name) (afferents_declare graph name)

theorem Records.addClass {graph : PackageGraph} {requests : List (String × String)}
    (records : graph.Records requests) (index : Nat) (record : ClassRecord) :
    (graph.addClass index record).Records requests :=
  records.of_continues (modify_continues graph index (·.addClass record) (fun _ => rfl))
    (records.wellFormed.addClass index record)
    (efferents_modify graph index (·.addClass record) (fun _ => rfl))
    (afferents_modify graph index (·.addClass record) (fun _ => rfl))

theorem Records.setVolatility {graph : PackageGraph} {requests : List (String × String)}
    (records : graph.Records requests) (name : String) (volatility : Nat) :
    (graph.setVolatility name volatility).1.Records requests :=
  (records.declare name).of_continues
    (modify_continues _ _ (fun package => { package with volatility }) (fun _ => rfl))
    (records.wellFormed.setVolatility name volatility)
    (efferents_modify _ _ (fun package => { package with volatility }) (fun _ => rfl))
    (afferents_modify _ _ (fun package => { package with volatility }) (fun _ => rfl))

/-- Packages of a well-formed graph are the same if their names are. -/
theorem WellFormed.nameOf_inj {graph : PackageGraph} (wellFormed : graph.WellFormed)
    {one other : Nat} (oneInRange : one < graph.size) (otherInRange : other < graph.size) :
    graph.nameOf one = graph.nameOf other ↔ one = other := by
  constructor
  · intro same
    have here := packageNames_getElem? graph one oneInRange
    have there := packageNames_getElem? graph other otherInRange
    rw [← same] at there
    exact (List.getElem?_inj (List.getElem?_eq_some_iff.mp here).1 wellFormed.names_nodup).mp
      (here.trans there.symm)
  · exact fun same => same ▸ rfl

theorem WellFormed.nameOf_mem_names {graph : PackageGraph} (wellFormed : graph.WellFormed)
    {indices : List Nat} (inRange : ∀ index ∈ indices, index < graph.size) {index : Nat}
    (member : index < graph.size) : graph.nameOf index ∈ graph.names indices ↔ index ∈ indices := by
  simp only [names, List.mem_map]
  constructor
  · rintro ⟨other, present, same⟩
    exact (wellFormed.nameOf_inj (inRange other present) member).mp same ▸ present
  · exact fun present => ⟨index, present, rfl⟩

theorem allows_iff {graph : PackageGraph} (wellFormed : graph.WellFormed) {source target : Nat}
    (sourceInRange : source < graph.size) (targetInRange : target < graph.size) :
    graph.Allows source target ↔
      isAllowed graph.allowSelf (graph.nameOf source, graph.nameOf target) = true := by
  simp only [Allows, isAllowed, Bool.or_eq_true, bne_iff_ne, ne_eq,
    wellFormed.nameOf_inj sourceInRange targetInRange]
  exact or_comm

theorem names_link (graph : PackageGraph) (source target : Nat) :
    (graph.link source target).1.names = graph.names := by
  funext indices
  apply List.map_congr_left
  intro index _
  by_cases inRange : index < graph.size
  · exact (link_continues graph source target).nameOf_eq inRange
  · have absent : graph.packages[index]? = none := List.getElem?_eq_none (Nat.le_of_not_lt inRange)
    have still : (graph.link source target).1.packages[index]? = none :=
      List.getElem?_eq_none (Nat.le_of_not_lt (by rwa [← size, size_link]))
    simp only [nameOf, absent, still]

/-- One more request is accounted for on either side of the dependency it asks for. -/
private theorem WellFormed.account_concat {graph : PackageGraph} (wellFormed : graph.WellFormed)
    {named wanted : String × String → String} {requests : List (String × String)}
    {held : Nat → List Nat} (inRange : ∀ index, ∀ other ∈ held index, other < graph.size)
    (account : ∀ index < graph.size, graph.names (held index) =
      firstRequested named wanted graph.allowSelf requests (graph.nameOf index))
    {request : String × String} {owner added : Nat} (ownerInRange : owner < graph.size)
    (addedInRange : added < graph.size) (ownerNamed : named request = graph.nameOf owner)
    (addedNamed : wanted request = graph.nameOf added) {new : Prop} [Decidable new]
    (isNew : new ↔ isAllowed graph.allowSelf request = true ∧ added ∉ held owner) (index : Nat)
    (indexInRange : index < graph.size) :
    graph.names (if index = owner ∧ new then held index ++ [added] else held index) =
      firstRequested named wanted graph.allowSelf (requests ++ [request]) (graph.nameOf index) := by
  -- Numbers and names compare alike, as the names of a well-formed graph are distinct.
  have fresh := wellFormed.nameOf_mem_names (inRange index) addedInRange
  have same : (index = owner ∧ new) ↔
      graph.nameOf index = named request ∧ isAllowed graph.allowSelf request = true ∧
        wanted request ∉ graph.names (held index) := by
    rw [ownerNamed, addedNamed, wellFormed.nameOf_inj indexInRange ownerInRange, fresh, isNew]
    exact and_congr_right fun here => by rw [here]
  rw [firstRequested_concat, ← account index indexInRange]
  simp only [same]
  split <;> simp [names, addedNamed]

theorem Records.link {graph : PackageGraph} {requests : List (String × String)}
    (records : graph.Records requests) {source target : Nat} (sourceInRange : source < graph.size)
    (targetInRange : target < graph.size) :
    (graph.link source target).1.Records
      (requests ++ [(graph.nameOf source, graph.nameOf target)]) := by
  have continues := link_continues graph source target
  have wellFormed := records.wellFormed
  have allows := allows_iff wellFormed sourceInRange targetInRange
  refine ⟨wellFormed.link sourceInRange targetInRange, ?_, ?_, ?_⟩
  · intro index inRange
    rw [size_link] at inRange
    rw [continues.nameOf_eq inRange, continues.allowSelf, efferentNames, names_link,
      efferents_link sourceInRange]
    exact wellFormed.account_concat wellFormed.efferents_lt records.efferents sourceInRange
      targetInRange rfl rfl (by rw [allows]) index inRange
  · intro index inRange
    rw [size_link] at inRange
    rw [continues.nameOf_eq inRange, continues.allowSelf, afferentNames, names_link,
      afferents_link targetInRange]
    exact wellFormed.account_concat wellFormed.afferents_lt records.afferents targetInRange
      sourceInRange rfl rfl (by rw [allows, wellFormed.mirrored]) index inRange
  · intro request member
    rw [packageNames_link]
    rcases List.mem_append.mp member with old | new
    · exact records.declared request old
    · rw [List.mem_singleton.mp new]
      exact ⟨List.mem_of_getElem? (packageNames_getElem? graph source sourceInRange),
        List.mem_of_getElem? (packageNames_getElem? graph target targetInRange)⟩

/-- Between names, the dependencies of a graph are those requested and allowed. -/
theorem Records.depends_iff {graph : PackageGraph} {requests : List (String × String)}
    (records : graph.Records requests) (source target : String) :
    (∃ sourceIndex targetIndex, graph.indexOf? source = some sourceIndex ∧
      graph.indexOf? target = some targetIndex ∧ targetIndex ∈ graph.efferents sourceIndex) ↔
    target ∈ requestedTargets graph.allowSelf requests source := by
  have wellFormed := records.wellFormed
  constructor
  · rintro ⟨sourceIndex, targetIndex, sourceFound, targetFound, member⟩
    have sourceNamed := (wellFormed.indexOf?_iff _ _).mp sourceFound
    have targetNamed := (wellFormed.indexOf?_iff _ _).mp targetFound
    have held := List.mem_map_of_mem (f := graph.nameOf) member
    rw [← nameOf_of_getElem? sourceNamed, ← records.efferents _ (lt_size_of_getElem? sourceNamed)]
    rwa [nameOf_of_getElem? targetNamed] at held
  · intro requested
    -- A request declares both of its packages, so the source at least has a number to look under.
    have sourceDeclared : source ∈ graph.packageNames :=
      (records.declared _ ((mem_requestedTargets _ _ _ _).mp requested).1).1
    obtain ⟨sourceIndex, sourceNamed⟩ := List.mem_iff_getElem?.mp sourceDeclared
    rw [← nameOf_of_getElem? sourceNamed,
      ← records.efferents _ (lt_size_of_getElem? sourceNamed)] at requested
    obtain ⟨targetIndex, member, named⟩ := List.mem_map.mp requested
    have targetNamed := packageNames_getElem? graph targetIndex
      (wellFormed.efferents_lt sourceIndex targetIndex member)
    rw [named] at targetNamed
    exact ⟨sourceIndex, targetIndex, (wellFormed.indexOf?_iff _ _).mpr sourceNamed,
      (wellFormed.indexOf?_iff _ _).mpr targetNamed, member⟩

/-! ### Composed operations -/

theorem linkNamed_continues (graph : PackageGraph) (source : Nat) (target : String) :
    (graph.linkNamed source target).Continues graph :=
  (link_continues _ _ _).trans (declare_continues graph target)

theorem Records.linkNamed {graph : PackageGraph} {requests : List (String × String)}
    (records : graph.Records requests) {index : Nat} {source : String}
    (found : graph.packageNames[index]? = some source) (target : String) :
    (graph.linkNamed index target).Records (requests ++ [(source, target)]) := by
  have declared := records.declare target
  -- Declaring the target may add a package, so the source is found again in the later graph.
  have sourceFound := (declare_continues graph target).getElem? found
  have targetFound := records.wellFormed.declared target
  have linked := declared.link (lt_size_of_getElem? sourceFound) (lt_size_of_getElem? targetFound)
  rwa [nameOf_of_getElem? sourceFound, nameOf_of_getElem? targetFound] at linked

theorem dependsUpon_continues (graph : PackageGraph) (source target : String) :
    (graph.dependsUpon source target).1.Continues graph :=
  (linkNamed_continues _ _ target).trans (declare_continues graph source)

theorem Records.dependsUpon {graph : PackageGraph} {requests : List (String × String)}
    (records : graph.Records requests) (source target : String) :
    (graph.dependsUpon source target).1.Records (requests ++ [(source, target)]) :=
  (records.declare source).linkNamed (records.wellFormed.declared source) target

theorem foldl_linkNamed_continues (index : Nat) (targets : List String) (graph : PackageGraph) :
    (targets.foldl (·.linkNamed index ·) graph).Continues graph := by
  induction targets generalizing graph with
  | nil => exact Continues.refl graph
  | cons target rest ih =>
    exact (ih (graph.linkNamed index target)).trans (linkNamed_continues graph index target)

theorem Records.foldl_linkNamed {index : Nat} {source : String} (targets : List String)
    {graph : PackageGraph} {requests : List (String × String)} (records : graph.Records requests)
    (found : graph.packageNames[index]? = some source) :
    (targets.foldl (·.linkNamed index ·) graph).Records (requests ++ targets.map (source, ·)) := by
  -- The owner keeps its number while the targets are declared, which each step needs anew.
  induction targets generalizing graph requests with
  | nil => simpa using records
  | cons target rest ih =>
    have linked := ih (records.linkNamed found target)
      ((linkNamed_continues graph index target).getElem? found)
    simpa using linked

theorem foldInto_continues (graph : PackageGraph) (owner : String) (record : ClassRecord)
    (targets : List String) : (graph.foldInto owner record targets).1.Continues graph :=
  ((foldl_linkNamed_continues _ targets _).trans
    (modify_continues _ _ (·.addClass record) (fun _ => rfl))).trans (declare_continues graph owner)

theorem Records.foldInto {graph : PackageGraph} {requests : List (String × String)}
    (records : graph.Records requests) (owner : String) (record : ClassRecord)
    (targets : List String) :
    (graph.foldInto owner record targets).1.Records (requests ++ targets.map (owner, ·)) := by
  have added := (records.declare owner).addClass (graph.declare owner).2 record
  apply added.foldl_linkNamed
  exact (modify_continues _ _ (·.addClass record) (fun _ => rfl)).getElem?
    (records.wellFormed.declared owner)

end PackageGraph

/-! ### Runs -/

namespace GraphOperation

open PackageGraph

/-- No operation renumbers, renames or removes a package. -/
theorem apply_continues (operation : GraphOperation) (graph : PackageGraph) :
    (operation.apply graph).Continues graph := by
  cases operation with
  | declare name => exact declare_continues graph name
  | link source target => exact link_continues graph source target
  | dependsUpon source target => exact dependsUpon_continues graph source target
  | addClass index record => exact modify_continues graph index (·.addClass record) (fun _ => rfl)
  | fold record => exact foldInto_continues graph _ record _
  | foldMapped map record =>
    simp only [apply, PackageGraph.foldMapped]
    cases map record.packageName with
    | none => exact Continues.refl graph
    | some owner => exact foldInto_continues graph owner record _
  | setVolatility name volatility =>
    exact (modify_continues _ _ (fun package => { package with volatility }) (fun _ => rfl)).trans
      (declare_continues graph name)

theorem apply_records {graph : PackageGraph} {requests : List (String × String)}
    (records : graph.Records requests) (operation : GraphOperation)
    (inGraph : operation.InGraph graph) :
    (operation.apply graph).Records (requests ++ operation.requests graph) := by
  cases operation with
  | declare name => simpa [apply, GraphOperation.requests] using records.declare name
  | link source target => exact records.link inGraph.1 inGraph.2
  | dependsUpon source target => exact records.dependsUpon source target
  | addClass index record =>
    simpa [apply, GraphOperation.requests] using records.addClass index record
  | fold record => exact records.foldInto _ record _
  | foldMapped map record =>
    simp only [apply, PackageGraph.foldMapped, GraphOperation.requests]
    cases map record.packageName with
    | none => simpa using records
    | some owner => exact records.foldInto owner record _
  | setVolatility name volatility =>
    simpa [apply, GraphOperation.requests] using records.setVolatility name volatility

theorem Run.records {allowSelf : Bool} {operations : List GraphOperation} {graph : PackageGraph}
    {requests : List (String × String)} (run : Run allowSelf operations graph requests) :
    graph.Records requests ∧ graph.allowSelf = allowSelf := by
  induction run with
  | empty => exact ⟨records_empty allowSelf, rfl⟩
  | step operation _ inGraph ih =>
    exact ⟨apply_records ih.1 operation inGraph, (apply_continues operation _).allowSelf.trans ih.2⟩

/-- After every run of operations on an empty graph the names are distinct and found under their
numbers, all dependencies are in range, without duplicates and held by both of their packages, the
counters agree with the classes, the dependencies are exactly those requested and allowed, in the
order of the first requests, and no operation that follows renumbers, renames or removes a
package. -/
theorem run_keeps_account {allowSelf : Bool} {operations : List GraphOperation}
    {graph : PackageGraph} {requests : List (String × String)}
    (run : Run allowSelf operations graph requests) :
    graph.WellFormed ∧
    (∀ index < graph.size,
      graph.efferentNames index = requestedTargets allowSelf requests (graph.nameOf index) ∧
      graph.afferentNames index = requestedSources allowSelf requests (graph.nameOf index)) ∧
    (∀ source target,
      (∃ sourceIndex targetIndex, graph.indexOf? source = some sourceIndex ∧
        graph.indexOf? target = some targetIndex ∧ targetIndex ∈ graph.efferents sourceIndex) ↔
      (source, target) ∈ requests ∧ (source ≠ target ∨ allowSelf = true)) ∧
    ∀ operation : GraphOperation,
      graph.packageNames <+: (operation.apply graph).packageNames := by
  obtain ⟨records, rfl⟩ := run.records
  refine ⟨records.wellFormed, fun index inRange => ⟨records.efferents index inRange,
    records.afferents index inRange⟩, ?_, fun operation => (apply_continues operation graph).names⟩
  intro source target
  rw [records.depends_iff, mem_requestedTargets]
  simp only [isAllowed, Bool.or_eq_true, bne_iff_ne, or_comm]

/-- A class folded under names that coincide, then a self dependency by numbers, where none is
allowed. -/
theorem run_keeps_account_folded :
    ∃ graph requests, Run false
        [.foldMapped (fun name => if name = "c" then some "b" else some name)
          ⟨"a.A", "a", none, true, ["b", "c"]⟩, .link 0 0] graph requests ∧
      graph.WellFormed ∧ requests = [("a", "b"), ("a", "b"), ("a", "a")] ∧
      graph.efferentNames 0 = requestedTargets false requests (graph.nameOf 0) ∧
      requestedTargets false requests (graph.nameOf 0) = ["b"] := by
  have run := Run.step (.link 0 0) (Run.step (.foldMapped
    (fun name => if name = "c" then some "b" else some name)
    ⟨"a.A", "a", none, true, ["b", "c"]⟩) (@Run.empty false) trivial)
    ⟨by decide, by decide⟩
  have account := run_keeps_account run
  exact ⟨_, _, run, account.1, by decide, (account.2.1 0 (by decide)).1, by decide⟩

end GraphOperation

end PackageAudit
