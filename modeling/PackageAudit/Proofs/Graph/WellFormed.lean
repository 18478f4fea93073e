import PackageAudit.Graph.Basic
import Mathlib.Data.List.Nodup
/-!
Graphs whose parts agree.

A package is written down in several places: its name in the arena and in the table of names, each
of its dependencies with both packages, its abstract classes in a list and in a counter. In a
well-formed graph these places say the same. Every operation is a sequence of four primitive ones,
each of which keeps a graph well-formed.
-/

namespace PackageAudit.PackageGraph

def packageNames (graph : PackageGraph) : List String := graph.packages.map (·.name)

/-- Whether the options of the graph let one package depend upon another. -/
def Allows (graph : PackageGraph) (source target : Nat) : Prop :=
  source ≠ target ∨ graph.allowSelf = true

instance (graph : PackageGraph) (source target : Nat) : Decidable (graph.Allows source target) :=
  inferInstanceAs (Decidable (_ ∨ _))

structure WellFormed (graph : PackageGraph) : Prop where
  names_nodup : graph.packageNames.Nodup
  /-- The table finds exactly the packages of the arena. -/
  indexOf?_iff : ∀ name index, graph.indexOf? name = some index ↔
    graph.packageNames[index]? = some name
  efferents_lt : ∀ source, ∀ target ∈ graph.efferents source, target < graph.size
  afferents_lt : ∀ target, ∀ source ∈ graph.afferents target, source < graph.size
  efferents_nodup : ∀ source, (graph.efferents source).Nodup
  afferents_nodup : ∀ target, (graph.afferents target).Nodup
  mirrored : ∀ source target, target ∈ graph.efferents source ↔ source ∈ graph.afferents target
  abstract_counted : ∀ package ∈ graph.packages,
    package.abstractClasses = package.classes.countP (·.isAbstract)

/-! ### What is read after a change -/

theorem size_eq_length_packageNames (graph : PackageGraph) :
    graph.size = graph.packageNames.length := by
  simp only [size, packageNames, List.length_map]

theorem packageNames_getElem? (graph : PackageGraph) (index : Nat) (inRange : index < graph.size) :
    graph.packageNames[index]? = some (graph.nameOf index) := by
  have present : graph.packages[index]? = some graph.packages[index] :=
    List.getElem?_eq_getElem inRange
  simp only [packageNames, nameOf, List.getElem?_map, present, Option.map_some]

theorem nameOf_of_getElem? {graph : PackageGraph} {index : Nat} {name : String}
    (named : graph.packageNames[index]? = some name) : graph.nameOf index = name := by
  simp only [packageNames, List.getElem?_map, Option.map_eq_some_iff] at named
  obtain ⟨package, present, same⟩ := named
  simp only [nameOf, present, same]

theorem lt_size_of_getElem? {graph : PackageGraph} {index : Nat} {name : String}
    (named : graph.packageNames[index]? = some name) : index < graph.size := by
  rw [size_eq_length_packageNames]
  exact (List.getElem?_eq_some_iff.mp named).1

section Couplings

variable (side : Package → List Nat)

/-- One of the two lists of a package, of which the efferents and the afferents are instances. -/
def couplings (graph : PackageGraph) (index : Nat) : List Nat :=
  (graph.packages[index]?.map side).getD []

theorem efferents_eq_couplings (graph : PackageGraph) :
    graph.efferents = graph.couplings (·.efferents) := by
  funext index
  simp only [efferents, couplings]
  cases graph.packages[index]? <;> rfl

theorem afferents_eq_couplings (graph : PackageGraph) :
    graph.afferents = graph.couplings (·.afferents) := by
  funext index
  simp only [afferents, couplings]
  cases graph.packages[index]? <;> rfl

theorem couplings_of_size_le (graph : PackageGraph) (index : Nat) (beyond : graph.size ≤ index) :
    graph.couplings side index = [] := by
  have absent : graph.packages[index]? = none := List.getElem?_eq_none beyond
  simp only [couplings, absent, Option.map_none, Option.getD_none]

theorem couplings_modify (graph : PackageGraph) (index : Nat) (change : Package → Package)
    (keeps : ∀ package, side (change package) = side package) :
    (graph.modify index change).couplings side = graph.couplings side := by
  funext other
  simp only [couplings, modify, List.getElem?_modify]
  cases graph.packages[other]? with
  | none => rfl
  | some package =>
    by_cases same : index = other
    · simp [same, keeps]
    · simp [same]

theorem couplings_modify_concat (graph : PackageGraph) (index : Nat) (change : Package → Package)
    (added : Nat) (adds : ∀ package, side (change package) = side package ++ [added])
    (inRange : index < graph.size) (other : Nat) :
    (graph.modify index change).couplings side other =
      if other = index then graph.couplings side other ++ [added]
      else graph.couplings side other := by
  simp only [couplings, modify, List.getElem?_modify]
  by_cases same : other = index
  · subst same
    have present : graph.packages[other]? = some graph.packages[other] :=
      List.getElem?_eq_getElem inRange
    simp [present, adds]
  · cases graph.packages[other]? <;> simp [same, Ne.symm same]

/-- A new last item that reads like none at all changes nothing that is read. -/
theorem read_concat_getElem? {α β : Type} (read : α → β) {last : α} {none : β}
    (fresh : read last = none) (items : List α) (index : Nat) :
    ((items ++ [last])[index]?.map read).getD none = (items[index]?.map read).getD none := by
  rcases Nat.lt_trichotomy index items.length with before | same | beyond
  · rw [List.getElem?_append_left before]
  · simp [same, fresh]
  · rw [List.getElem?_eq_none (by simpa using Nat.succ_le_of_lt beyond),
      List.getElem?_eq_none (Nat.le_of_lt beyond)]

theorem couplings_declare (graph : PackageGraph) (name : String)
    (fresh : side { name := name } = []) :
    (graph.declare name).1.couplings side = graph.couplings side := by
  unfold declare
  split
  · rfl
  · funext index
    exact read_concat_getElem? side fresh graph.packages index

end Couplings

theorem efferents_of_size_le (graph : PackageGraph) (index : Nat) (beyond : graph.size ≤ index) :
    graph.efferents index = [] := by
  rw [efferents_eq_couplings, couplings_of_size_le _ graph index beyond]

theorem afferents_of_size_le (graph : PackageGraph) (index : Nat) (beyond : graph.size ≤ index) :
    graph.afferents index = [] := by
  rw [afferents_eq_couplings, couplings_of_size_le _ graph index beyond]

section Modify

variable (graph : PackageGraph) (index : Nat) (change : Package → Package)

@[simp] theorem size_modify : (graph.modify index change).size = graph.size := by
  simp only [size, modify, List.length_modify]

@[simp] theorem indexOf?_modify (name : String) :
    (graph.modify index change).indexOf? name = graph.indexOf? name := rfl

theorem packageNames_modify (keeps : ∀ package, (change package).name = package.name) :
    (graph.modify index change).packageNames = graph.packageNames := by
  apply List.ext_getElem?
  intro other
  simp only [packageNames, modify, List.getElem?_map, List.getElem?_modify]
  cases graph.packages[other]? with
  | none => rfl
  | some package =>
    by_cases same : index = other
    · simp [same, keeps]
    · simp [same]

theorem efferents_modify (keeps : ∀ package, (change package).efferents = package.efferents) :
    (graph.modify index change).efferents = graph.efferents := by
  rw [efferents_eq_couplings, efferents_eq_couplings, couplings_modify _ graph index change keeps]

theorem afferents_modify (keeps : ∀ package, (change package).afferents = package.afferents) :
    (graph.modify index change).afferents = graph.afferents := by
  rw [afferents_eq_couplings, afferents_eq_couplings, couplings_modify _ graph index change keeps]

theorem efferents_addEfferent (target : Nat) (inRange : index < graph.size) (other : Nat) :
    (graph.modify index (·.addEfferent target)).efferents other =
      if other = index then graph.efferents other ++ [target] else graph.efferents other := by
  rw [efferents_eq_couplings, efferents_eq_couplings]
  exact couplings_modify_concat _ graph index _ target (fun _ => rfl) inRange other

theorem afferents_addAfferent (source : Nat) (inRange : index < graph.size) (other : Nat) :
    (graph.modify index (·.addAfferent source)).afferents other =
      if other = index then graph.afferents other ++ [source] else graph.afferents other := by
  rw [afferents_eq_couplings, afferents_eq_couplings]
  exact couplings_modify_concat _ graph index _ source (fun _ => rfl) inRange other

end Modify

/-! ### Declaring a package -/

theorem WellFormed.indexOf?_eq_none_iff {graph : PackageGraph} (wellFormed : graph.WellFormed)
    (name : String) : graph.indexOf? name = none ↔ name ∉ graph.packageNames := by
  constructor
  · intro unknown member
    obtain ⟨index, named⟩ := List.mem_iff_getElem?.mp member
    rw [(wellFormed.indexOf?_iff name index).mpr named] at unknown
    cases unknown
  · intro absent
    cases found : graph.indexOf? name with
    | none => rfl
    | some index =>
      exact absurd (List.mem_of_getElem? ((wellFormed.indexOf?_iff name index).mp found)) absent

theorem declare_of_known {graph : PackageGraph} {name : String} {index : Nat}
    (known : graph.indexOf? name = some index) : graph.declare name = (graph, index) := by
  simp only [declare, known]

theorem declare_of_unknown {graph : PackageGraph} {name : String}
    (unknown : graph.indexOf? name = none) :
    graph.declare name =
      ({ graph with
         packages := graph.packages ++ [{ name := name }]
         byName := (name, graph.size) :: graph.byName }, graph.size) := by
  simp only [declare, unknown]

/-- The new entry stands before all others in the table, so it is found for its own name alone. -/
theorem indexOf?_declare_of_unknown {graph : PackageGraph} {name : String}
    (unknown : graph.indexOf? name = none) (other : String) :
    (graph.declare name).1.indexOf? other =
      if other = name then some graph.size else graph.indexOf? other := by
  simp only [declare_of_unknown unknown, indexOf?, List.lookup_cons]
  by_cases same : other = name
  · simp [same]
  · simp [same, beq_false_of_ne same]

@[simp] theorem allowSelf_declare (graph : PackageGraph) (name : String) :
    (graph.declare name).1.allowSelf = graph.allowSelf := by
  unfold declare
  split <;> rfl

theorem efferents_declare (graph : PackageGraph) (name : String) :
    (graph.declare name).1.efferents = graph.efferents := by
  rw [efferents_eq_couplings, efferents_eq_couplings, couplings_declare _ graph name rfl]

theorem afferents_declare (graph : PackageGraph) (name : String) :
    (graph.declare name).1.afferents = graph.afferents := by
  rw [afferents_eq_couplings, afferents_eq_couplings, couplings_declare _ graph name rfl]

theorem packageNames_declare (graph : PackageGraph) (name : String) :
    (graph.declare name).1.packageNames =
      graph.packageNames ++ if (graph.indexOf? name).isSome then [] else [name] := by
  cases found : graph.indexOf? name with
  | some index => simp [declare_of_known found]
  | none => simp [declare_of_unknown found, packageNames]

/-- A declared package is found under its number. -/
theorem WellFormed.declared {graph : PackageGraph} (wellFormed : graph.WellFormed) (name : String) :
    (graph.declare name).1.packageNames[(graph.declare name).2]? = some name := by
  cases found : graph.indexOf? name with
  | some index =>
    rw [declare_of_known found]
    exact (wellFormed.indexOf?_iff name index).mp found
  | none => simp [declare_of_unknown found, packageNames, size]

private theorem concat_getElem?_eq_some_iff {α : Type} (items : List α) (last item : α)
    (index : Nat) : (items ++ [last])[index]? = some item ↔
      items[index]? = some item ∨ (index = items.length ∧ last = item) := by
  rcases Nat.lt_trichotomy index items.length with before | same | beyond
  · simp [List.getElem?_append_left before, Nat.ne_of_lt before]
  · simp [same]
  · have outside : (items ++ [last])[index]? = none :=
      List.getElem?_eq_none (by simpa using Nat.succ_le_of_lt beyond)
    simp [outside, List.getElem?_eq_none (Nat.le_of_lt beyond), Nat.ne_of_gt beyond]

theorem WellFormed.declare {graph : PackageGraph} (wellFormed : graph.WellFormed) (name : String) :
    (graph.declare name).1.WellFormed := by
  cases found : graph.indexOf? name with
  | some index => rwa [declare_of_known found]
  | none =>
    have absent := (wellFormed.indexOf?_eq_none_iff name).mp found
    have names : (graph.declare name).1.packageNames = graph.packageNames ++ [name] := by
      simp [packageNames_declare, found]
    have larger : graph.size ≤ (graph.declare name).1.size := by
      simp [size_eq_length_packageNames, names]
    refine ⟨?_, ?_, ?_, ?_, ?_, ?_, ?_, ?_⟩
    · rw [names]
      rw [← List.concat_eq_append]
      exact List.Nodup.concat absent wellFormed.names_nodup
    · intro other index
      rw [indexOf?_declare_of_unknown found, names, concat_getElem?_eq_some_iff, ← wellFormed.indexOf?_iff,
        size_eq_length_packageNames]
      by_cases same : other = name
      · simp [same, found, eq_comm]
      · simp [same, Ne.symm same]
    · rw [efferents_declare]
      exact fun source target member =>
        Nat.lt_of_lt_of_le (wellFormed.efferents_lt source target member) larger
    · rw [afferents_declare]
      exact fun target source member =>
        Nat.lt_of_lt_of_le (wellFormed.afferents_lt target source member) larger
    · rw [efferents_declare]
      exact wellFormed.efferents_nodup
    · rw [afferents_declare]
      exact wellFormed.afferents_nodup
    · rw [efferents_declare, afferents_declare]
      exact wellFormed.mirrored
    · rw [declare_of_unknown found]
      intro package member
      rcases List.mem_append.mp member with old | new
      · exact wellFormed.abstract_counted package old
      · rw [List.mem_singleton.mp new]
        rfl

/-! ### Changing one package -/

/-- Every package counts its abstract classes. -/
private theorem abstract_counted_modify {graph : PackageGraph} (index : Nat)
    (change : Package → Package)
    (counts : ∀ package, package.abstractClasses = package.classes.countP (·.isAbstract) →
      (change package).abstractClasses = (change package).classes.countP (·.isAbstract))
    (counted : ∀ package ∈ graph.packages,
      package.abstractClasses = package.classes.countP (·.isAbstract)) :
    ∀ package ∈ (graph.modify index change).packages,
      package.abstractClasses = package.classes.countP (·.isAbstract) := by
  intro package member
  obtain ⟨other, present⟩ := List.mem_iff_getElem?.mp member
  rw [PackageGraph.modify, List.getElem?_modify] at present
  obtain ⟨old, found, rfl⟩ := Option.map_eq_some_iff.mp present
  have before := counted old (List.mem_of_getElem? found)
  split
  · exact counts old before
  · exact before

theorem WellFormed.modify {graph : PackageGraph} (wellFormed : graph.WellFormed) (index : Nat)
    (change : Package → Package) (keepsName : ∀ package, (change package).name = package.name)
    (keepsEfferents : ∀ package, (change package).efferents = package.efferents)
    (keepsAfferents : ∀ package, (change package).afferents = package.afferents)
    (counts : ∀ package, package.abstractClasses = package.classes.countP (·.isAbstract) →
      (change package).abstractClasses = (change package).classes.countP (·.isAbstract)) :
    (graph.modify index change).WellFormed := by
  refine ⟨?_, ?_, ?_, ?_, ?_, ?_, ?_, ?_⟩
  · rw [packageNames_modify graph index change keepsName]
    exact wellFormed.names_nodup
  · intro name other
    rw [packageNames_modify graph index change keepsName, indexOf?_modify]
    exact wellFormed.indexOf?_iff name other
  · rw [efferents_modify graph index change keepsEfferents, size_modify]
    exact wellFormed.efferents_lt
  · rw [afferents_modify graph index change keepsAfferents, size_modify]
    exact wellFormed.afferents_lt
  · rw [efferents_modify graph index change keepsEfferents]
    exact wellFormed.efferents_nodup
  · rw [afferents_modify graph index change keepsAfferents]
    exact wellFormed.afferents_nodup
  · rw [efferents_modify graph index change keepsEfferents,
      afferents_modify graph index change keepsAfferents]
    exact wellFormed.mirrored
  · exact abstract_counted_modify index change counts wellFormed.abstract_counted

theorem WellFormed.addClass {graph : PackageGraph} (wellFormed : graph.WellFormed) (index : Nat)
    (record : ClassRecord) : (graph.addClass index record).WellFormed := by
  apply wellFormed.modify index (·.addClass record) (fun _ => rfl) (fun _ => rfl) (fun _ => rfl)
  intro package counted
  simp [Package.addClass, counted, List.countP_cons]

theorem WellFormed.setVolatility {graph : PackageGraph} (wellFormed : graph.WellFormed)
    (name : String) (volatility : Nat) : (graph.setVolatility name volatility).1.WellFormed :=
  (wellFormed.declare name).modify _ _ (fun _ => rfl) (fun _ => rfl) (fun _ => rfl)
    fun _ counted => counted

/-! ### Recording a dependency -/

section Link

variable {graph : PackageGraph} {source target : Nat}

/-- A dependency that is recorded is allowed and new. -/
theorem link_cases (graph : PackageGraph) (source target : Nat) :
    ((graph.Allows source target ∧ target ∉ graph.efferents source) ∧
      (graph.link source target).1 =
        (graph.modify source (·.addEfferent target)).modify target (·.addAfferent source)) ∨
    (¬(graph.Allows source target ∧ target ∉ graph.efferents source) ∧
      (graph.link source target).1 = graph) := by
  unfold link
  split
  next refused => right; simp [Allows, refused]
  next accepted =>
    split
    next old => right; simp [old]
    next fresh =>
      left
      refine ⟨⟨?_, fresh⟩, rfl⟩
      rw [not_and_or, Bool.not_eq_false] at accepted
      exact accepted

@[simp] theorem allowSelf_link : (graph.link source target).1.allowSelf = graph.allowSelf := by
  rcases link_cases graph source target with ⟨_, after⟩ | ⟨_, after⟩ <;> rw [after]
  rfl

theorem packageNames_link : (graph.link source target).1.packageNames = graph.packageNames := by
  rcases link_cases graph source target with ⟨_, after⟩ | ⟨_, after⟩ <;> rw [after]
  rw [packageNames_modify _ _ (·.addAfferent source) (fun _ => rfl),
    packageNames_modify _ _ (·.addEfferent target) (fun _ => rfl)]

theorem indexOf?_link (name : String) :
    (graph.link source target).1.indexOf? name = graph.indexOf? name := by
  rcases link_cases graph source target with ⟨_, after⟩ | ⟨_, after⟩ <;> rw [after]
  rfl

theorem size_link : (graph.link source target).1.size = graph.size := by
  simp only [size_eq_length_packageNames, packageNames_link]

theorem efferents_link (inRange : source < graph.size) (index : Nat) :
    (graph.link source target).1.efferents index =
      if index = source ∧ graph.Allows source target ∧ target ∉ graph.efferents source
      then graph.efferents index ++ [target] else graph.efferents index := by
  rcases link_cases graph source target with ⟨added, after⟩ | ⟨kept, after⟩
  · rw [after, efferents_modify _ _ (·.addAfferent source) (fun _ => rfl),
      efferents_addEfferent _ _ _ inRange]
    simp only [added, and_self, and_true, not_false_eq_true]
  · rw [after, if_neg (fun both => kept both.2)]

theorem afferents_link (inRange : target < graph.size) (index : Nat) :
    (graph.link source target).1.afferents index =
      if index = target ∧ graph.Allows source target ∧ target ∉ graph.efferents source
      then graph.afferents index ++ [source] else graph.afferents index := by
  rcases link_cases graph source target with ⟨added, after⟩ | ⟨kept, after⟩
  · rw [after, afferents_addAfferent _ _ _ (by rwa [size_modify]),
      afferents_modify _ _ (·.addEfferent target) (fun _ => rfl)]
    simp only [added, and_self, and_true, not_false_eq_true]
  · rw [after, if_neg (fun both => kept both.2)]

private theorem forall_mem_concat_if {items : List Nat} {item : Nat} {added : Prop}
    [Decidable added] {holds : Nat → Prop} (old : ∀ other ∈ items, holds other)
    (new : holds item) : ∀ other ∈ if added then items ++ [item] else items, holds other := by
  intro other member
  split at member
  · rcases List.mem_append.mp member with here | last
    · exact old other here
    · rwa [List.mem_singleton.mp last]
  · exact old other member

private theorem nodup_concat_if {items : List Nat} {item : Nat} {added : Prop} [Decidable added]
    (nodup : items.Nodup) (fresh : added → item ∉ items) :
    (if added then items ++ [item] else items).Nodup := by
  split
  next new =>
    rw [← List.concat_eq_append]
    exact List.Nodup.concat (fresh new) nodup
  next => exact nodup

theorem WellFormed.link (wellFormed : graph.WellFormed) (sourceInRange : source < graph.size)
    (targetInRange : target < graph.size) : (graph.link source target).1.WellFormed := by
  refine ⟨?_, ?_, ?_, ?_, ?_, ?_, ?_, ?_⟩
  · rw [packageNames_link]
    exact wellFormed.names_nodup
  · intro name index
    rw [packageNames_link, indexOf?_link]
    exact wellFormed.indexOf?_iff name index
  · intro index
    rw [efferents_link sourceInRange, size_link]
    exact forall_mem_concat_if (wellFormed.efferents_lt index) targetInRange
  · intro index
    rw [afferents_link targetInRange, size_link]
    exact forall_mem_concat_if (wellFormed.afferents_lt index) sourceInRange
  · intro index
    rw [efferents_link sourceInRange]
    apply nodup_concat_if (wellFormed.efferents_nodup index)
    rintro ⟨rfl, -, fresh⟩
    exact fresh
  · intro index
    rw [afferents_link targetInRange]
    -- Only the efferents are looked through for a duplicate; the afferents mirror them.
    apply nodup_concat_if (wellFormed.afferents_nodup index)
    rintro ⟨rfl, -, fresh⟩
    exact fun old => fresh ((wellFormed.mirrored source index).mpr old)
  · intro one other
    -- Both lists grow by the same dependency, at the same time or not at all.
    rw [efferents_link sourceInRange, afferents_link targetInRange]
    have mirrored := wellFormed.mirrored one other
    by_cases added : graph.Allows source target ∧ target ∉ graph.efferents source
    · simp only [added, and_true, not_false_eq_true, and_self]
      split <;> split <;> simp_all
    · simp only [added, and_false, if_false]
      exact mirrored
  · rcases link_cases graph source target with ⟨-, after⟩ | ⟨-, after⟩ <;> rw [after]
    · exact abstract_counted_modify _ _ (fun _ counted => counted)
        (abstract_counted_modify _ _ (fun _ counted => counted) wellFormed.abstract_counted)
    · exact wellFormed.abstract_counted

end Link

end PackageAudit.PackageGraph
