import Mathlib.Data.List.Induction
import PackageAudit.Proofs.Graph.ByName
import PackageAudit.Shape
/-!
A graph and a shape that were declared alike.

Both create a package when it is first named and keep each dependency once, in the order of the first
requests, although they number and store packages in ways of their own. They part over a package that
depends upon itself: a graph keeps that if its options let it, and a shape never does. So a graph fits
the shape of its own declarations but for such dependencies, and `compare_ofDeclarations` says what is
reported of those.
-/

namespace PackageAudit

/-- A package, or a dependency with both of its packages. -/
inductive Declaration where
  | package (name : String)
  | dependency (source target : String)
  deriving DecidableEq

namespace Declaration

def onGraph (graph : PackageGraph) : Declaration → PackageGraph
  | .package name => (graph.declare name).1
  | .dependency source target => (graph.dependsUpon source target).1

def onShape (shape : Shape) : Declaration → Shape
  | .package name => shape.declare name
  | .dependency source target => shape.dependsUpon source target

def names : Declaration → List String
  | .package name => [name]
  | .dependency source target => [source, target]

def requests : Declaration → List (String × String)
  | .package _ => []
  | .dependency source target => [(source, target)]

theorem mem_flatMap_requests (declarations : List Declaration) (source target : String) :
    (source, target) ∈ declarations.flatMap requests ↔
      .dependency source target ∈ declarations := by
  rw [List.mem_flatMap]
  constructor
  · rintro ⟨declaration, member, requested⟩
    cases declaration with
    | package name => cases requested
    | dependency one other =>
      obtain ⟨rfl, rfl⟩ := Prod.mk.inj (List.mem_singleton.mp requested)
      exact member
  · exact fun member => ⟨_, member, .head _⟩

end Declaration

/-! ### What a graph holds of its declarations -/

namespace PackageGraph

theorem WellFormed.mem_packageNames_dependsUpon {graph : PackageGraph}
    (wellFormed : graph.WellFormed) (source target name : String) :
    name ∈ (graph.dependsUpon source target).1.packageNames ↔
      name ∈ graph.packageNames ∨ name ∈ [source, target] := by
  simp only [dependsUpon, packageNames_link, List.mem_pair]
  rw [(wellFormed.declare source).mem_packageNames_declare, wellFormed.mem_packageNames_declare,
    or_assoc]

def ofDeclarations (allowSelf : Bool) (declarations : List Declaration) : PackageGraph :=
  declarations.foldl Declaration.onGraph (.empty allowSelf)

theorem ofDeclarations_concat (allowSelf : Bool) (declarations : List Declaration)
    (last : Declaration) : ofDeclarations allowSelf (declarations ++ [last]) =
      last.onGraph (ofDeclarations allowSelf declarations) := by
  rw [ofDeclarations, List.foldl_append]
  rfl

/-- By induction on the declarations, the last of which is looked at first. -/
theorem ofDeclarations_records (allowSelf : Bool) (declarations : List Declaration) :
    let graph := ofDeclarations allowSelf declarations
    graph.Records (declarations.flatMap Declaration.requests) ∧ graph.allowSelf = allowSelf ∧
      ∀ name, name ∈ graph.packageNames ↔ name ∈ declarations.flatMap Declaration.names := by
  induction declarations using List.reverseRecOn with
  | nil => exact ⟨records_empty allowSelf, rfl, fun _ => Iff.rfl⟩
  | append_singleton declarations last ih =>
    obtain ⟨records, option, names⟩ := ih
    simp only [ofDeclarations_concat, List.flatMap_append, List.flatMap_singleton, List.mem_append,
      ← names]
    cases last with
    | package name =>
      rw [Declaration.requests, List.append_nil]
      refine ⟨records.declare name, (allowSelf_declare _ name).trans option, fun other => ?_⟩
      rw [Declaration.onGraph, records.wellFormed.mem_packageNames_declare, Declaration.names,
        List.mem_singleton]
    | dependency source target =>
      refine ⟨records.dependsUpon source target,
        (dependsUpon_continues _ source target).allowSelf.trans option, fun other => ?_⟩
      exact records.wellFormed.mem_packageNames_dependsUpon source target other

end PackageGraph

/-! ### What a shape holds of its declarations -/

namespace Shape

def names (shape : Shape) : List String := shape.packages.map (·.1)

theorem efferentsOf?_isSome_iff (shape : Shape) (name : String) :
    (shape.efferentsOf? name).isSome = true ↔ name ∈ shape.names := by
  rw [efferentsOf?, names]
  induction shape.packages with
  | nil => simp
  | cons entry rest ih =>
    rw [List.lookup_cons, List.map_cons, List.mem_cons, ← ih]
    by_cases same : name = entry.1
    · simp [same]
    · simp [same, beq_false_of_ne same]

theorem packages_declare (shape : Shape) (name : String) :
    (shape.declare name).packages =
      shape.packages ++ if name ∈ shape.names then [] else [(name, [])] := by
  rw [declare]
  by_cases known : name ∈ shape.names
  · rw [if_pos ((shape.efferentsOf?_isSome_iff name).mpr known), if_pos known, List.append_nil]
  · rw [if_neg (mt (shape.efferentsOf?_isSome_iff name).mp known), if_neg known]

theorem names_declare (shape : Shape) (name : String) :
    (shape.declare name).names = shape.names ++ if name ∈ shape.names then [] else [name] := by
  rw [names, packages_declare, List.map_append, names]
  split <;> rfl

theorem mem_names_declare (shape : Shape) (declared name : String) :
    name ∈ (shape.declare declared).names ↔ name ∈ shape.names ∨ name = declared := by
  rw [names_declare, List.mem_append]
  by_cases known : declared ∈ shape.names
  · rw [if_pos known]
    exact ⟨fun either => either.imp_right nofun, fun either => either.elim .inl (· ▸ .inl known)⟩
  · rw [if_neg known, List.mem_singleton]

/-- Each package has one entry, which holds what was requested of it but for itself. -/
structure Records (shape : Shape) (requests : List (String × String)) : Prop where
  names_nodup : shape.names.Nodup
  efferents : ∀ entry ∈ shape.packages, entry.2 = requestedTargets false requests entry.1
  declared : ∀ request ∈ requests, request.1 ∈ shape.names ∧ request.2 ∈ shape.names

theorem records_empty : empty.Records [] := ⟨List.nodup_nil, nofun, nofun⟩

variable {shape : Shape} {requests : List (String × String)}

theorem Records.declare (records : shape.Records requests) (name : String) :
    (shape.declare name).Records requests := by
  refine ⟨?_, ?_, fun request member => ?_⟩
  · rw [names_declare]
    split
    next known => rw [List.append_nil]; exact records.names_nodup
    next fresh =>
      rw [← List.concat_eq_append]
      exact List.Nodup.concat fresh records.names_nodup
  · intro entry member
    rw [packages_declare, List.mem_append] at member
    rcases member with old | new
    · exact records.efferents entry old
    · split at new
      next known => cases new
      next fresh =>
        -- Nothing was requested of the package before, since that would have declared it.
        rw [List.mem_singleton.mp new, requestedTargets, firstRequested_eq_nil]
        intro request present same
        exact fresh ((congrArg (· ∈ shape.names) same).mp (records.declared request present).1)
  · obtain ⟨source, target⟩ := records.declared request member
    exact ⟨(shape.mem_names_declare name _).mpr (.inl source),
      (shape.mem_names_declare name _).mpr (.inl target)⟩

/-- What a dependency adds to the entries of a shape in which both packages are declared. -/
private def addTarget (source target : String) (entry : String × List String) :
    String × List String :=
  if entry.1 = source ∧ isAllowed false (source, target) = true ∧ target ∉ entry.2
  then (entry.1, entry.2 ++ [target]) else entry

private theorem addTarget_fst (source target : String) (entry : String × List String) :
    (addTarget source target entry).1 = entry.1 := by
  unfold addTarget
  split <;> rfl

private theorem packages_dependsUpon (shape : Shape) (source target : String) :
    (shape.dependsUpon source target).packages =
      ((shape.declare target).declare source).packages.map (addTarget source target) := by
  rw [dependsUpon]
  by_cases same : source = target
  · have kept : addTarget source target = id := by
      funext entry
      simp [addTarget, isAllowed, same]
    rw [if_pos same, kept, List.map_id]
  · rw [if_neg same]
    apply List.map_congr_left
    intro entry _
    simp [addTarget, isAllowed, same]

theorem names_dependsUpon (shape : Shape) (source target : String) :
    (shape.dependsUpon source target).names = ((shape.declare target).declare source).names := by
  rw [names, packages_dependsUpon, List.map_map, names]
  exact List.map_congr_left fun entry _ => addTarget_fst source target entry

theorem mem_names_dependsUpon (shape : Shape) (source target name : String) :
    name ∈ (shape.dependsUpon source target).names ↔
      name ∈ shape.names ∨ name ∈ [source, target] := by
  rw [names_dependsUpon, mem_names_declare, mem_names_declare, or_assoc, List.mem_pair,
    or_comm (a := name = target)]

theorem Records.dependsUpon (records : shape.Records requests) (source target : String) :
    (shape.dependsUpon source target).Records (requests ++ [(source, target)]) := by
  have declared := (records.declare target).declare source
  refine ⟨?_, ?_, fun request member => ?_⟩
  · rw [names_dependsUpon]
    exact declared.names_nodup
  · intro added member
    rw [packages_dependsUpon] at member
    obtain ⟨entry, present, rfl⟩ := List.mem_map.mp member
    rw [addTarget_fst, requestedTargets, firstRequested_concat, ← requestedTargets,
      ← declared.efferents entry present]
    exact apply_ite Prod.snd _ _ _
  · rcases List.mem_append.mp member with old | new
    · obtain ⟨earlier, later⟩ := records.declared request old
      exact ⟨(shape.mem_names_dependsUpon source target _).mpr (.inl earlier),
        (shape.mem_names_dependsUpon source target _).mpr (.inl later)⟩
    · rw [List.mem_singleton.mp new]
      exact ⟨(shape.mem_names_dependsUpon source target _).mpr (.inr (.head _)),
        (shape.mem_names_dependsUpon source target _).mpr (.inr (.tail _ (.head _)))⟩

def ofDeclarations (declarations : List Declaration) : Shape :=
  declarations.foldl Declaration.onShape .empty

theorem ofDeclarations_concat (declarations : List Declaration) (last : Declaration) :
    ofDeclarations (declarations ++ [last]) = last.onShape (ofDeclarations declarations) := by
  rw [ofDeclarations, List.foldl_append]
  rfl

theorem ofDeclarations_records (declarations : List Declaration) :
    (ofDeclarations declarations).Records (declarations.flatMap Declaration.requests) ∧
      ∀ name, name ∈ (ofDeclarations declarations).names ↔
        name ∈ declarations.flatMap Declaration.names := by
  induction declarations using List.reverseRecOn with
  | nil => exact ⟨records_empty, fun _ => Iff.rfl⟩
  | append_singleton declarations last ih =>
    obtain ⟨records, names⟩ := ih
    simp only [ofDeclarations_concat, List.flatMap_append, List.flatMap_singleton, List.mem_append,
      ← names]
    cases last with
    | package name =>
      rw [Declaration.requests, List.append_nil]
      refine ⟨records.declare name, fun other => ?_⟩
      rw [Declaration.onShape, mem_names_declare, Declaration.names, List.mem_singleton]
    | dependency source target =>
      refine ⟨records.dependsUpon source target, fun other => ?_⟩
      exact mem_names_dependsUpon _ source target other

/-! ### Comparing the two -/

/-- What is reported of a package for depending upon itself. -/
def selfDifference (name : String) : EfferentDifference :=
  { package := name, unexpected := [name], missing := [] }

section Compare

variable {graph : PackageGraph} {index : Nat} {name : String}

/-- A dependency upon itself is all that the entry of a package can lack. -/
theorem efferentDifference?_requested (records : graph.Records requests)
    (named : graph.packageNames[index]? = some name) :
    efferentDifference? graph index name (requestedTargets false requests name) =
      if graph.allowSelf = true ∧ (name, name) ∈ requests then some (selfDifference name)
      else none := by
  have wellFormed := records.wellFormed
  have actual := records.efferents index (PackageGraph.lt_size_of_getElem? named)
  rw [PackageGraph.nameOf_of_getElem? named] at actual
  have missing : (requestedTargets false requests name).filter
      (· ∉ graph.efferentNames index) = [] := by
    rw [List.filter_eq_nil_iff, actual]
    intro target expected
    obtain ⟨requested, foreign⟩ := (mem_requestedTargets _ _ _ _).mp expected
    have held : target ∈ requestedTargets graph.allowSelf requests name :=
      (mem_requestedTargets _ _ _ _).mpr ⟨requested, Bool.or_eq_true_iff.mpr (.inr foreign)⟩
    simpa using held
  have unexpected (target : String) :
      target ∈ (graph.efferentNames index).filter (· ∉ requestedTargets false requests name) ↔
        target = name ∧ graph.allowSelf = true ∧ (name, name) ∈ requests := by
    simp only [actual, List.mem_filter, mem_requestedTargets, isAllowed, Bool.false_or,
      Bool.or_eq_true, bne_iff_ne, decide_eq_true_eq]
    grind
  have nodup : (graph.efferentNames index).Nodup :=
    wellFormed.nodup_names (wellFormed.efferents_lt index) (wellFormed.efferents_nodup index)
  simp only [efferentDifference?, missing]
  by_cases selfish : graph.allowSelf = true ∧ (name, name) ∈ requests
  · have itself : (graph.efferentNames index).filter
        (· ∉ requestedTargets false requests name) = [name] := by
      apply List.perm_singleton.mp
      apply (List.perm_ext_iff_of_nodup (nodup.filter _) (List.nodup_singleton name)).mpr
      intro target
      rw [unexpected, List.mem_singleton, and_iff_left selfish]
    rw [itself, if_pos selfish]
    rfl
  · have nothing : (graph.efferentNames index).filter
        (· ∉ requestedTargets false requests name) = [] :=
      List.eq_nil_iff_forall_not_mem.mpr fun target member =>
        selfish ((unexpected target).mp member).2
    rw [nothing, if_neg selfish]
    rfl

/-- A graph and a shape that hold the same names and requests differ only in the dependencies of
packages upon themselves. -/
theorem Records.compare_eq (held : shape.Records requests) (records : graph.Records requests)
    (known : ∀ name, name ∈ shape.names ↔ name ∈ graph.packageNames) :
    shape.compare graph =
      { efferentDifferences := (shape.names.filter fun name =>
          decide (graph.allowSelf = true ∧ (name, name) ∈ requests)).map selfDifference } := by
  have missing : shape.names.filter (fun name => (graph.indexOf? name).isNone) = [] := by
    rw [List.filter_eq_nil_iff]
    intro name member
    rw [Option.isNone_iff_eq_none, records.wellFormed.indexOf?_eq_none_iff]
    exact not_not_intro ((known name).mp member)
  have unexpected :
      graph.packageNames.filter (fun name => (shape.efferentsOf? name).isNone) = [] := by
    rw [List.filter_eq_nil_iff]
    intro name member
    rw [Bool.not_eq_true, Option.isNone_eq_false_iff, efferentsOf?_isSome_iff]
    exact (known name).mpr member
  have differences : (shape.packages.filterMap fun entry =>
      (graph.indexOf? entry.1).bind fun index =>
        efferentDifference? graph index entry.1 entry.2) =
      (shape.names.filter fun name =>
        decide (graph.allowSelf = true ∧ (name, name) ∈ requests)).map selfDifference := by
    rw [← List.filterMap_eq_map, List.filterMap_filter, Shape.names, List.filterMap_map]
    apply List.filterMap_congr
    intro entry member
    obtain ⟨index, named⟩ :=
      List.mem_iff_getElem?.mp ((known entry.1).mp (List.mem_map_of_mem member))
    rw [(records.wellFormed.indexOf?_iff entry.1 index).mpr named, Option.bind_some,
      held.efferents entry member, efferentDifference?_requested records named]
    simp
  exact ShapeDifference.mk.injEq _ _ _ _ _ _ |>.mpr ⟨missing, unexpected, differences⟩

end Compare

/-- Declared alike, a graph and a shape have the same packages, and each package depends upon the same
others. All that a comparison reports are the packages that were declared to depend upon themselves, where
the graph allows that: each of them once, for itself. -/
theorem compare_ofDeclarations (allowSelf : Bool) (declarations : List Declaration) :
    let shape := ofDeclarations declarations
    let graph := PackageGraph.ofDeclarations allowSelf declarations
    shape.compare graph =
      { missingPackages := []
        unexpectedPackages := []
        efferentDifferences := (shape.names.filter fun name =>
            decide (allowSelf = true ∧ .dependency name name ∈ declarations)).map
          fun name => { package := name, unexpected := [name], missing := [] } } ∧
    ((shape.compare graph).efferentDifferences.map (·.package)).Nodup ∧
    (∀ name, name ∈ (shape.compare graph).efferentDifferences.map (·.package) ↔
      allowSelf = true ∧ .dependency name name ∈ declarations) ∧
    (shape.fits graph = true ↔
      allowSelf = false ∨ ∀ name, .dependency name name ∉ declarations) := by
  intro shape graph
  obtain ⟨records, allowed, packages⟩ :=
    PackageGraph.ofDeclarations_records allowSelf declarations
  obtain ⟨held, names⟩ := ofDeclarations_records declarations
  have difference := held.compare_eq records fun name => (names name).trans (packages name).symm
  simp only [allowed, Declaration.mem_flatMap_requests] at difference
  have reported : (shape.compare graph).efferentDifferences.map (·.package) =
      shape.names.filter fun name => decide (allowSelf = true ∧ .dependency name name ∈ declarations) := by
    rw [difference, List.map_map]
    exact List.map_id _
  -- Depending upon itself declares a package, so the shape leaves none of these out.
  have known (name : String) (declared : .dependency name name ∈ declarations) : name ∈ shape.names :=
    (names name).mpr (List.mem_flatMap_of_mem declared (.head _))
  refine ⟨difference, ?_, fun name => ?_, ?_⟩
  · rw [reported]
    exact held.names_nodup.filter _
  · rw [reported, List.mem_filter, decide_eq_true_eq]
    exact and_iff_right_of_imp fun selfish => known name selfish.2
  · rw [fits, difference]
    simp only [ShapeDifference.isEmpty, List.isEmpty_nil, Bool.true_and, List.isEmpty_iff,
      List.map_eq_nil_iff, List.filter_eq_nil_iff, decide_eq_true_eq, not_and]
    constructor
    · intro fitting
      rcases Bool.eq_false_or_eq_true allowSelf with allows | refuses
      · exact .inr fun name declared => fitting name (known name declared) allows declared
      · exact .inl refuses
    · rintro (refuses | none) name - allows
      · exact absurd allows (by rw [refuses]; exact Bool.false_ne_true)
      · exact none name

/-- A package that depends upon itself, in a graph that allows it, is no part of its own shape. -/
theorem compare_with_self_dependency :
    let declarations : List Declaration := [.dependency "app" "app"]
    let shape := ofDeclarations declarations
    let graph := PackageGraph.ofDeclarations true declarations
    shape.compare graph = { efferentDifferences := [⟨"app", ["app"], []⟩] } ∧
      shape.fits graph = false := by
  decide +kernel

end Shape

end PackageAudit
