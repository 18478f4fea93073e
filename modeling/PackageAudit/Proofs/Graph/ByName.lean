import PackageAudit.Graph.Metrics
import PackageAudit.Proofs.Graph.Contents
import PackageAudit.Proofs.Graph.CycleSearch
import Mathlib.Data.Finset.Image
/-!
Graphs by the names of their packages.

A package gets its number when it is first declared, so the order in which classes are folded shows
in the numbers, in the order of dependencies and in the paths of walks. It does not show in what a
graph says about names. Whatever a report derives from a graph is therefore compared by name: two
graphs that hold the same under every name and have the same dependencies between names have the same
metrics, lead to cycles from the same packages and have the same cyclic groups.
-/

namespace PackageAudit.PackageGraph

open Relation (ReflTransGen TransGen)

variable {graph : PackageGraph} {index other : Nat} {name : String}

/-- Whether the package of one name depends upon the package of another. -/
def DependsByName (graph : PackageGraph) (source target : String) : Prop :=
  ∃ sourceIndex targetIndex, graph.indexOf? source = some sourceIndex ∧
    graph.indexOf? target = some targetIndex ∧ targetIndex ∈ graph.efferents sourceIndex

/-! ### Numbers and names -/

theorem WellFormed.indexOf?_nameOf (wellFormed : graph.WellFormed) (inRange : index < graph.size) :
    graph.indexOf? (graph.nameOf index) = some index :=
  (wellFormed.indexOf?_iff _ _).mpr (packageNames_getElem? graph index inRange)

theorem mem_packageNames_iff (graph : PackageGraph) (name : String) :
    name ∈ graph.packageNames ↔ ∃ index < graph.size, graph.nameOf index = name := by
  rw [List.mem_iff_getElem?]
  constructor
  · rintro ⟨index, named⟩
    exact ⟨index, lt_size_of_getElem? named, nameOf_of_getElem? named⟩
  · rintro ⟨index, inRange, rfl⟩
    exact ⟨index, packageNames_getElem? graph index inRange⟩

theorem WellFormed.dependsByName_nameOf_iff (wellFormed : graph.WellFormed)
    (inRange : index < graph.size) (otherInRange : other < graph.size) :
    graph.DependsByName (graph.nameOf index) (graph.nameOf other) ↔
      other ∈ graph.efferents index := by
  rw [DependsByName, wellFormed.indexOf?_nameOf inRange, wellFormed.indexOf?_nameOf otherInRange]
  constructor
  · rintro ⟨_, _, ⟨⟩, ⟨⟩, depends⟩
    exact depends
  · exact fun depends => ⟨index, other, rfl, rfl, depends⟩

/-- Both ends of a dependency are packages of the graph. -/
theorem DependsByName.mem_packageNames {source target : String} (wellFormed : graph.WellFormed)
    (depends : graph.DependsByName source target) :
    source ∈ graph.packageNames ∧ target ∈ graph.packageNames := by
  obtain ⟨sourceIndex, targetIndex, sourceFound, targetFound, -⟩ := depends
  exact ⟨List.mem_of_getElem? ((wellFormed.indexOf?_iff _ _).mp sourceFound),
    List.mem_of_getElem? ((wellFormed.indexOf?_iff _ _).mp targetFound)⟩

theorem WellFormed.mem_efferentNames_iff (wellFormed : graph.WellFormed)
    (inRange : index < graph.size) (name : String) :
    name ∈ graph.efferentNames index ↔ graph.DependsByName (graph.nameOf index) name := by
  simp only [efferentNames, names, List.mem_map]
  constructor
  · rintro ⟨target, depends, rfl⟩
    exact (wellFormed.dependsByName_nameOf_iff inRange
      (wellFormed.efferents_lt index target depends)).mpr depends
  · intro depends
    obtain ⟨target, targetInRange, rfl⟩ :=
      (graph.mem_packageNames_iff name).mp (depends.mem_packageNames wellFormed).2
    exact ⟨target, (wellFormed.dependsByName_nameOf_iff inRange targetInRange).mp depends, rfl⟩

theorem WellFormed.mem_afferentNames_iff (wellFormed : graph.WellFormed)
    (inRange : index < graph.size) (name : String) :
    name ∈ graph.afferentNames index ↔ graph.DependsByName name (graph.nameOf index) := by
  simp only [afferentNames, names, List.mem_map]
  constructor
  · rintro ⟨source, depends, rfl⟩
    exact (wellFormed.dependsByName_nameOf_iff (wellFormed.afferents_lt index source depends)
      inRange).mpr ((wellFormed.mirrored source index).mpr depends)
  · intro depends
    obtain ⟨source, sourceInRange, rfl⟩ :=
      (graph.mem_packageNames_iff name).mp (depends.mem_packageNames wellFormed).1
    exact ⟨source, (wellFormed.mirrored source index).mp
      ((wellFormed.dependsByName_nameOf_iff sourceInRange inRange).mp depends), rfl⟩

theorem length_names (graph : PackageGraph) (indices : List Nat) :
    (graph.names indices).length = indices.length :=
  List.length_map _

theorem WellFormed.nodup_names (wellFormed : graph.WellFormed) {indices : List Nat}
    (inRange : ∀ index ∈ indices, index < graph.size) (nodup : indices.Nodup) :
    (graph.names indices).Nodup := by
  apply List.Nodup.map_on _ nodup
  intro one first another second same
  exact (wellFormed.nameOf_inj (inRange one first) (inRange another second)).mp same

/-! ### Reachability and cycles -/

/-- One or more dependencies lead from a package to the same names, counted by numbers or by name. -/
theorem WellFormed.transGen_dependsByName_iff (wellFormed : graph.WellFormed)
    (inRange : index < graph.size) (name : String) :
    TransGen graph.DependsByName (graph.nameOf index) name ↔
      ∃ other < graph.size, graph.nameOf other = name ∧
        TransGen (DependsUpon graph.efferents) index other := by
  constructor
  · intro leads
    induction leads with
    | single depends =>
      obtain ⟨-, there⟩ := depends.mem_packageNames wellFormed
      obtain ⟨other, otherInRange, rfl⟩ := (graph.mem_packageNames_iff _).mp there
      exact ⟨other, otherInRange, rfl,
        .single ((wellFormed.dependsByName_nameOf_iff inRange otherInRange).mp depends)⟩
    | tail _ depends ih =>
      obtain ⟨middle, middleInRange, rfl, onward⟩ := ih
      obtain ⟨-, there⟩ := depends.mem_packageNames wellFormed
      obtain ⟨other, otherInRange, rfl⟩ := (graph.mem_packageNames_iff _).mp there
      exact ⟨other, otherInRange, rfl, onward.tail
        ((wellFormed.dependsByName_nameOf_iff middleInRange otherInRange).mp depends)⟩
  · rintro ⟨other, -, rfl, leads⟩
    apply leads.lift graph.nameOf
    intro source target depends
    exact (wellFormed.dependsByName_nameOf_iff (lt_size_of_depends depends)
      (wellFormed.efferents_lt source target depends)).mpr depends

theorem WellFormed.transGen_nameOf_iff (wellFormed : graph.WellFormed)
    (inRange : index < graph.size) (otherInRange : other < graph.size) :
    TransGen graph.DependsByName (graph.nameOf index) (graph.nameOf other) ↔
      TransGen (DependsUpon graph.efferents) index other := by
  rw [wellFormed.transGen_dependsByName_iff inRange]
  constructor
  · rintro ⟨found, foundInRange, same, leads⟩
    rwa [← (wellFormed.nameOf_inj foundInRange otherInRange).mp same]
  · exact fun leads => ⟨other, otherInRange, rfl, leads⟩

theorem WellFormed.leadsToCycle_iff_byName (wellFormed : graph.WellFormed)
    (inRange : index < graph.size) :
    LeadsToCycle graph.efferents index ↔
      ∃ name, TransGen graph.DependsByName (graph.nameOf index) name ∧
        TransGen graph.DependsByName name name := by
  constructor
  · rintro ⟨member, reaches, cyclic⟩
    have memberInRange := wellFormed.reaches_lt inRange reaches
    exact ⟨graph.nameOf member,
      (wellFormed.transGen_nameOf_iff inRange memberInRange).mpr (cyclic.trans_right reaches),
      (wellFormed.transGen_nameOf_iff memberInRange memberInRange).mpr cyclic⟩
  · rintro ⟨name, leads, cyclic⟩
    obtain ⟨member, memberInRange, rfl, onward⟩ :=
      (wellFormed.transGen_dependsByName_iff inRange name).mp leads
    exact ⟨member, onward.to_reflTransGen,
      (wellFormed.transGen_nameOf_iff memberInRange memberInRange).mp cyclic⟩

/-- The members of a cyclic group are those that lead to one of them and back. -/
theorem mem_group_iff {group : List Nat} (member : group ∈ graph.cycleGroups)
    (here : index ∈ group) : other ∈ group ↔
      TransGen (DependsUpon graph.efferents) index other ∧
        TransGen (DependsUpon graph.efferents) other index := by
  have component := graph.listsComponents_components.isComponent_group member
  have cyclic := (graph.onCycle_iff_mem_cycleGroups index).mpr ⟨group, member, here⟩
  rw [← List.mem_toFinset, component.mem_iff (List.mem_toFinset.mpr here)]
  -- The first package leads to itself, so it leads to all it reaches, and is led to likewise.
  constructor
  · rintro ⟨onward, back⟩
    exact ⟨cyclic.trans_left onward, cyclic.trans_right back⟩
  · rintro ⟨onward, back⟩
    exact ⟨onward.to_reflTransGen, back.to_reflTransGen⟩

/-- By name, the cyclic groups are the sets of what leads to a package on a cycle and back. -/
theorem WellFormed.exists_group_names_iff (wellFormed : graph.WellFormed) (members : Finset String) :
    (∃ group ∈ graph.cycleGroups, (graph.names group).toFinset = members) ↔
      ∃ name, TransGen graph.DependsByName name name ∧ ∀ other, other ∈ members ↔
        TransGen graph.DependsByName name other ∧ TransGen graph.DependsByName other name := by
  -- What is connected with a package of a group is counted by numbers there, by name here.
  have byName (group : List Nat) (member : group ∈ graph.cycleGroups) (index : Nat)
      (here : index ∈ group) (name : String) : name ∈ (graph.names group).toFinset ↔
        TransGen graph.DependsByName (graph.nameOf index) name ∧
          TransGen graph.DependsByName name (graph.nameOf index) := by
    have component := graph.listsComponents_components.isComponent_group member
    have inRange := component.lt_size (List.mem_toFinset.mpr here)
    rw [List.mem_toFinset, names, List.mem_map]
    constructor
    · rintro ⟨other, present, rfl⟩
      have otherInRange := component.lt_size (List.mem_toFinset.mpr present)
      rw [wellFormed.transGen_nameOf_iff inRange otherInRange,
        wellFormed.transGen_nameOf_iff otherInRange inRange]
      exact (mem_group_iff member here).mp present
    · rintro ⟨onward, back⟩
      obtain ⟨other, otherInRange, rfl, leads⟩ :=
        (wellFormed.transGen_dependsByName_iff inRange name).mp onward
      rw [wellFormed.transGen_nameOf_iff otherInRange inRange] at back
      exact ⟨other, (mem_group_iff member here).mpr ⟨leads, back⟩, rfl⟩
  constructor
  · rintro ⟨group, member, rfl⟩
    obtain ⟨index, here⟩ := (graph.listsComponents_components.isComponent_group member).nonempty
    have present := List.mem_toFinset.mp here
    refine ⟨graph.nameOf index, ?_, byName group member index present⟩
    exact ((byName group member index present _).mp
      (List.mem_toFinset.mpr (List.mem_map_of_mem present))).1
  · rintro ⟨name, cyclic, exact⟩
    -- A name that leads to itself depends upon something, so it is that of a package.
    obtain ⟨next, depends, -⟩ := TransGen.head'_iff.mp cyclic
    obtain ⟨index, inRange, rfl⟩ :=
      (graph.mem_packageNames_iff name).mp (depends.mem_packageNames wellFormed).1
    obtain ⟨group, member, here⟩ := (graph.onCycle_iff_mem_cycleGroups index).mp
      ((wellFormed.transGen_nameOf_iff inRange inRange).mp cyclic)
    refine ⟨group, member, ?_⟩
    ext other
    rw [byName group member index here, exact]

/-! ### Graphs that agree -/

/-- Two graphs hold the same under every name, but for the order of classes, and have the same
dependencies between names. -/
structure AgreesByName (graph alike : PackageGraph) : Prop where
  names : ∀ name, name ∈ graph.packageNames ↔ name ∈ alike.packageNames
  classes : ∀ name, (graph.held (·.classes) name).Perm (alike.held (·.classes) name)
  volatility : ∀ name, graph.held (·.volatility) name = alike.held (·.volatility) name
  depends : ∀ source target, graph.DependsByName source target ↔ alike.DependsByName source target

variable {alike : PackageGraph}

theorem AgreesByName.packageNames_perm (agrees : graph.AgreesByName alike)
    (wellFormed : graph.WellFormed) (alikeWellFormed : alike.WellFormed) :
    graph.packageNames.Perm alike.packageNames :=
  (List.perm_ext_iff_of_nodup wellFormed.names_nodup alikeWellFormed.names_nodup).mpr agrees.names

theorem WellFormed.package?_name (wellFormed : graph.WellFormed) {package : Package}
    (found : graph.packages[index]? = some package) : graph.package? package.name = some package := by
  have named : graph.packageNames[index]? = some package.name := by
    rw [packageNames, List.getElem?_map, found, Option.map_some]
  rw [package?, (wellFormed.indexOf?_iff _ _).mpr named, Option.bind_some, found]

theorem WellFormed.classCount_eq (wellFormed : graph.WellFormed) :
    graph.classCount = graph.packageNames.foldr
      (fun name count => (graph.held (·.classes) name).length + count) 0 := by
  rw [classCount, packageNames, List.foldr_map]
  apply List.foldr_ext
  intro package member count
  obtain ⟨index, found⟩ := List.mem_iff_getElem?.mp member
  rw [held_of_package? _ (wellFormed.package?_name found)]

theorem AgreesByName.classCount_eq (agrees : graph.AgreesByName alike)
    (wellFormed : graph.WellFormed) (alikeWellFormed : alike.WellFormed) :
    graph.classCount = alike.classCount := by
  have classes (name : String) : (graph.held (·.classes) name).length =
      (alike.held (·.classes) name).length := (agrees.classes name).length_eq
  simp only [wellFormed.classCount_eq, alikeWellFormed.classCount_eq, classes]
  exact (agrees.packageNames_perm wellFormed alikeWellFormed).foldr_eq' (fun _ _ _ _ _ => by omega) 0

/-- Two packages of one name, each in a graph of its own. -/
structure Counterparts (graph alike : PackageGraph) (index other : Nat) : Prop where
  inRange : index < graph.size
  otherInRange : other < alike.size
  named : graph.nameOf index = alike.nameOf other

section Counterparts

variable (agrees : graph.AgreesByName alike) (wellFormed : graph.WellFormed)
  (alikeWellFormed : alike.WellFormed) (counterparts : graph.Counterparts alike index other)

include agrees wellFormed alikeWellFormed counterparts

theorem AgreesByName.efferentNames_perm :
    (graph.efferentNames index).Perm (alike.efferentNames other) := by
  apply (List.perm_ext_iff_of_nodup
    (wellFormed.nodup_names (wellFormed.efferents_lt index) (wellFormed.efferents_nodup index))
    (alikeWellFormed.nodup_names (alikeWellFormed.efferents_lt other)
      (alikeWellFormed.efferents_nodup other))).mpr
  intro name
  rw [← efferentNames, ← efferentNames, wellFormed.mem_efferentNames_iff counterparts.inRange,
    alikeWellFormed.mem_efferentNames_iff counterparts.otherInRange, agrees.depends,
    counterparts.named]

theorem AgreesByName.afferentNames_perm :
    (graph.afferentNames index).Perm (alike.afferentNames other) := by
  apply (List.perm_ext_iff_of_nodup
    (wellFormed.nodup_names (wellFormed.afferents_lt index) (wellFormed.afferents_nodup index))
    (alikeWellFormed.nodup_names (alikeWellFormed.afferents_lt other)
      (alikeWellFormed.afferents_nodup other))).mpr
  intro name
  rw [← afferentNames, ← afferentNames, wellFormed.mem_afferentNames_iff counterparts.inRange,
    alikeWellFormed.mem_afferentNames_iff counterparts.otherInRange, agrees.depends,
    counterparts.named]

/-- Counters are compared by what they count, and couplings by the names they lead to. -/
theorem AgreesByName.metrics_eq {package counterpart : Package}
    (found : graph.packages[index]? = some package)
    (otherFound : alike.packages[other]? = some counterpart) (named : package.name = counterpart.name) :
    graph.metrics index package = alike.metrics other counterpart := by
  have held := held_of_package? (·.classes) (wellFormed.package?_name found)
  have otherHeld := held_of_package? (·.classes) (alikeWellFormed.package?_name otherFound)
  have classes : package.classes.Perm counterpart.classes := by
    rw [← held, ← otherHeld, named]
    exact agrees.classes _
  have abstractClasses : package.abstractClasses = counterpart.abstractClasses := by
    rw [wellFormed.abstract_counted _ (List.mem_of_getElem? found),
      alikeWellFormed.abstract_counted _ (List.mem_of_getElem? otherFound), classes.countP_eq]
  have volatility : package.volatility = counterpart.volatility := by
    rw [← held_of_package? (·.volatility) (wellFormed.package?_name found),
      ← held_of_package? (·.volatility) (alikeWellFormed.package?_name otherFound), named]
    exact agrees.volatility _
  have efferents := (agrees.efferentNames_perm wellFormed alikeWellFormed counterparts).length_eq
  have afferents := (agrees.afferentNames_perm wellFormed alikeWellFormed counterparts).length_eq
  rw [efferentNames, efferentNames, length_names, length_names] at efferents
  rw [afferentNames, afferentNames, length_names, length_names] at afferents
  rw [metrics, metrics, classes.length_eq, abstractClasses, volatility, efferents, afferents]

omit wellFormed alikeWellFormed counterparts in
theorem AgreesByName.transGen_eq :
    TransGen graph.DependsByName = TransGen alike.DependsByName := by
  have same : graph.DependsByName = alike.DependsByName := by
    funext source target
    exact propext (agrees.depends source target)
  rw [same]

theorem AgreesByName.path_eq_nil_iff :
    (graph.cyclePath index).path = [] ↔ (alike.cyclePath other).path = [] := by
  rw [← not_iff_not, ← Ne, ← Ne, wellFormed.path_ne_nil_iff counterparts.inRange,
    alikeWellFormed.path_ne_nil_iff counterparts.otherInRange,
    wellFormed.leadsToCycle_iff_byName counterparts.inRange,
    alikeWellFormed.leadsToCycle_iff_byName counterparts.otherInRange, agrees.transGen_eq,
    counterparts.named]

end Counterparts

/-- The cyclic groups are the same sets of names. -/
theorem AgreesByName.exists_group_names_iff (agrees : graph.AgreesByName alike)
    (wellFormed : graph.WellFormed) (alikeWellFormed : alike.WellFormed) (members : Finset String) :
    (∃ group ∈ graph.cycleGroups, (graph.names group).toFinset = members) ↔
      ∃ group ∈ alike.cycleGroups, (alike.names group).toFinset = members := by
  rw [wellFormed.exists_group_names_iff, alikeWellFormed.exists_group_names_iff, agrees.transGen_eq]

end PackageAudit.PackageGraph
