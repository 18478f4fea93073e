import PackageAudit.Graph.Cycle
import PackageAudit.Proofs.Graph.Reachability
import PackageAudit.Proofs.Graph.Requests
import Mathlib.Algebra.BigOperators.Group.Finset.Basic
import Mathlib.Data.List.Sort
import Mathlib.Order.Minimal
/-!
Components and the cyclic groups among them.

A component is a largest set of packages that reach one another, so two components share no package.
Whoever finds the components may list them, and the members of each, in any order: what is left after
dropping the acyclic ones is put in the one order in which members ascend and groups ascend by their
first members, which differ because the components are disjoint.

The components of a graph are read off what each package reaches. The search has fuel for what is
pending and for the dependencies of what it has not seen; seeing a package trades the one for the
other, so the fuel lasts until nothing is pending.
-/

namespace PackageAudit.PackageGraph

open Relation (ReflTransGen TransGen)

variable {graph : PackageGraph} {node other start : Nat}

/-! ### What the search for reachable packages finds -/

theorem dependencyCount_eq_sum (graph : PackageGraph) :
    graph.dependencyCount = ∑ index ∈ Finset.range graph.size, (graph.efferents index).length := by
  simp only [efferents_eq_couplings, couplings, dependencyCount, size]
  induction graph.packages with
  | nil => rfl
  | cons package rest ih =>
    rw [List.foldr_cons, ih, List.length_cons, Finset.sum_range_succ', Nat.add_comm]
    rfl

/-- The number of dependencies of the packages that a search has not seen. -/
def unseenDependencies (graph : PackageGraph) (seen : List Nat) : Nat :=
  ∑ index ∈ Finset.range graph.size \ seen.toFinset, (graph.efferents index).length

theorem unseenDependencies_nil (graph : PackageGraph) :
    graph.unseenDependencies [] = graph.dependencyCount := by
  simp [unseenDependencies, dependencyCount_eq_sum]

/-- Seeing a package makes its dependencies pending. -/
theorem unseenDependencies_cons (graph : PackageGraph) {seen : List Nat} (fresh : node ∉ seen) :
    graph.unseenDependencies (node :: seen) + (graph.efferents node).length =
      graph.unseenDependencies seen := by
  simp only [unseenDependencies, List.toFinset_cons, Finset.sdiff_insert]
  by_cases inRange : node < graph.size
  · exact Finset.sum_erase_add _ _ (by simp [inRange, fresh])
  · have none := graph.efferents_of_size_le node (Nat.le_of_not_lt inRange)
    rw [Finset.sum_erase _ (by rw [none, List.length_nil]), none, List.length_nil, Nat.add_zero]

theorem reachFrom_cons (graph : PackageGraph) (fuel node : Nat) (pending seen : List Nat) :
    graph.reachFrom (fuel + 1) (node :: pending) seen =
      if node ∈ seen then graph.reachFrom fuel pending seen
      else graph.reachFrom fuel (graph.efferents node ++ pending) (node :: seen) := rfl

theorem reachFrom_sound {fuel : Nat} {pending seen : List Nat}
    (fromPending : ∀ index ∈ pending, Reaches graph.efferents start index)
    (fromSeen : ∀ index ∈ seen, Reaches graph.efferents start index) :
    ∀ index ∈ graph.reachFrom fuel pending seen, Reaches graph.efferents start index := by
  induction fuel generalizing pending seen with
  | zero => exact fromSeen
  | succ fuel ih =>
    cases pending with
    | nil => exact fromSeen
    | cons next rest =>
      have here := fromPending next List.mem_cons_self
      have later : ∀ index ∈ rest, Reaches graph.efferents start index :=
        fun index member => fromPending index (List.mem_cons_of_mem next member)
      rw [reachFrom_cons]
      split
      · exact ih later fromSeen
      · apply ih
        · intro index member
          rcases List.mem_append.mp member with depends | old
          · exact ReflTransGen.tail here depends
          · exact later index old
        · intro index member
          rcases List.mem_cons.mp member with rfl | old
          · exact here
          · exact fromSeen index old

private theorem seen_or_later {seen rest : List Nat} (known : node ∈ seen)
    (present : other ∈ seen ∨ other ∈ node :: rest) : other ∈ seen ∨ other ∈ rest := by
  rcases present with old | pending
  · exact .inl old
  · rcases List.mem_cons.mp pending with rfl | later
    · exact .inl known
    · exact .inr later

/-- A search keeps what it has seen, sees all that is pending, and stops when all that it has seen
depends upon is seen. -/
theorem reachFrom_complete (graph : PackageGraph) (fuel : Nat) (pending seen : List Nat)
    (enough : pending.length + graph.unseenDependencies seen ≤ fuel)
    (closed : ∀ index ∈ seen, ∀ target ∈ graph.efferents index, target ∈ seen ∨ target ∈ pending) :
    (∀ index, index ∈ seen ∨ index ∈ pending → index ∈ graph.reachFrom fuel pending seen) ∧
    ∀ index ∈ graph.reachFrom fuel pending seen, ∀ target ∈ graph.efferents index,
      target ∈ graph.reachFrom fuel pending seen := by
  induction fuel generalizing pending seen with
  | zero =>
    have drained : pending = [] := List.eq_nil_of_length_eq_zero (by omega)
    subst drained
    simpa [reachFrom] using closed
  | succ fuel ih =>
    cases pending with
    | nil => simpa [reachFrom] using closed
    | cons next rest =>
      rw [List.length_cons] at enough
      rw [reachFrom_cons]
      split
      next known =>
        obtain ⟨keeps, stops⟩ := ih rest seen (by omega)
          fun index member target depends => seen_or_later known (closed index member target depends)
        exact ⟨fun index present => keeps index (seen_or_later known present), stops⟩
      next fresh =>
        -- What the package depends upon becomes pending and is no longer counted as unseen.
        have trade := graph.unseenDependencies_cons fresh
        have still : ∀ index ∈ next :: seen, ∀ target ∈ graph.efferents index,
            target ∈ next :: seen ∨ target ∈ graph.efferents next ++ rest := by
          intro index member target depends
          rcases List.mem_cons.mp member with rfl | old
          · exact .inr (List.mem_append_left rest depends)
          · rcases closed index old target depends with known | present
            · exact .inl (List.mem_cons_of_mem next known)
            · rcases List.mem_cons.mp present with rfl | later
              · exact .inl List.mem_cons_self
              · exact .inr (List.mem_append_right _ later)
        obtain ⟨keeps, stops⟩ := ih (graph.efferents next ++ rest) (next :: seen)
          (by rw [List.length_append]; omega) still
        refine ⟨fun index present => keeps index ?_, stops⟩
        simp only [List.mem_cons, List.mem_append] at present ⊢
        rcases present with old | here | later
        · exact .inl (.inr old)
        · exact .inl (.inl here)
        · exact .inr (.inr later)

theorem mem_reachable_iff (graph : PackageGraph) (start node : Nat) :
    node ∈ graph.reachable start ↔ Reaches graph.efferents start node := by
  constructor
  · exact reachFrom_sound (by simp [Reaches, ReflTransGen.refl]) (by simp) node
  · intro reaches
    obtain ⟨keeps, stops⟩ := graph.reachFrom_complete (graph.dependencyCount + 2) [start] []
      (by rw [unseenDependencies_nil, List.length_singleton]; omega) (by simp)
    -- The search sees its start, and no dependency leads out of what it has seen.
    induction reaches with
    | refl => exact keeps start (by simp)
    | tail _ depends ih => exact stops _ ih _ depends

/-! ### Components -/

/-- Packages of the graph that all reach one another. -/
def MutuallyReachable (graph : PackageGraph) (members : Finset Nat) : Prop :=
  (∀ node ∈ members, node < graph.size) ∧
    ∀ node ∈ members, ∀ other ∈ members, Reaches graph.efferents node other

structure IsComponent (graph : PackageGraph) (members : Finset Nat) : Prop where
  nonempty : members.Nonempty
  maximal : Maximal graph.MutuallyReachable members

/-- What a search for the components of a graph answers: each once, and its members once, in any
order. -/
structure ListsComponents (graph : PackageGraph) (components : List (List Nat)) : Prop where
  isComponent : ∀ component ∈ components, component.Nodup ∧ graph.IsComponent component.toFinset
  listed : ∀ members, graph.IsComponent members →
    ∃ component ∈ components, component.toFinset = members
  once : (components.map List.toFinset).Nodup

def Connected (graph : PackageGraph) (node other : Nat) : Prop :=
  Reaches graph.efferents node other ∧ Reaches graph.efferents other node

theorem Connected.refl (graph : PackageGraph) (node : Nat) : graph.Connected node node :=
  ⟨ReflTransGen.refl, ReflTransGen.refl⟩

theorem Connected.symm (connected : graph.Connected node other) : graph.Connected other node :=
  ⟨connected.2, connected.1⟩

theorem Connected.trans {last : Nat} (first : graph.Connected node other)
    (second : graph.Connected other last) : graph.Connected node last :=
  ⟨first.1.trans second.1, second.2.trans first.2⟩

/-- What has a dependency is a package of the graph. -/
theorem lt_size_of_depends (depends : other ∈ graph.efferents node) : node < graph.size := by
  by_contra beyond
  rw [graph.efferents_of_size_le node (Nat.le_of_not_lt beyond)] at depends
  cases depends

theorem Connected.lt_size (connected : graph.Connected node other) (inRange : node < graph.size) :
    other < graph.size := by
  rcases ReflTransGen.cases_head connected.2 with rfl | ⟨next, depends, -⟩
  · exact inRange
  · exact lt_size_of_depends depends

theorem IsComponent.lt_size {members : Finset Nat} (component : graph.IsComponent members)
    (member : node ∈ members) : node < graph.size :=
  component.maximal.prop.1 node member

/-- A component holds all that is connected with one of its members. -/
theorem IsComponent.mem_iff {members : Finset Nat} (component : graph.IsComponent members)
    (member : node ∈ members) : other ∈ members ↔ graph.Connected node other := by
  have within := component.maximal.prop
  constructor
  · exact fun present => ⟨within.2 _ member _ present, within.2 _ present _ member⟩
  · intro connected
    -- With the other package the members still reach one another, by way of the one at hand.
    have reach (one : Nat) (here : one ∈ insert other members) : graph.Connected node one := by
      rcases Finset.mem_insert.mp here with rfl | old
      · exact connected
      · exact ⟨within.2 _ member _ old, within.2 _ old _ member⟩
    have larger : graph.MutuallyReachable (insert other members) :=
      ⟨fun one here => (reach one here).lt_size (within.1 node member),
        fun one here another there => ((reach one here).symm.trans (reach another there)).1⟩
    exact component.maximal.le_of_ge larger (Finset.subset_insert other members)
      (Finset.mem_insert_self other members)

theorem isComponent_of_mem_iff {members : Finset Nat} (inRange : node < graph.size)
    (mem_iff : ∀ other, other ∈ members ↔ graph.Connected node other) :
    graph.IsComponent members := by
  have member : node ∈ members := (mem_iff node).mpr (Connected.refl graph node)
  refine ⟨⟨node, member⟩, ⟨fun one here => ((mem_iff one).mp here).lt_size inRange,
    fun one here another there => (((mem_iff one).mp here).symm.trans ((mem_iff another).mp there)).1⟩,
    ?_⟩
  -- A larger set holds the package too, and so nothing but what is connected with it.
  intro larger reachable contained other present
  have here := contained member
  exact (mem_iff other).mpr ⟨reachable.2 _ here _ present, reachable.2 _ present _ here⟩

theorem IsComponent.eq_of_mem {one another : Finset Nat} (first : graph.IsComponent one)
    (second : graph.IsComponent another) (inFirst : node ∈ one) (inSecond : node ∈ another) :
    one = another := by
  ext other
  rw [first.mem_iff inFirst, second.mem_iff inSecond]

theorem ListsComponents.of_perm {components others : List (List Nat)}
    (listed : graph.ListsComponents components)
    (perm : (others.map List.toFinset).Perm (components.map List.toFinset))
    (nodup : ∀ component ∈ others, component.Nodup) : graph.ListsComponents others := by
  refine ⟨?_, ?_, perm.nodup_iff.mpr listed.once⟩
  · intro component member
    have present := perm.subset (List.mem_map_of_mem (f := List.toFinset) member)
    obtain ⟨original, there, same⟩ := List.mem_map.mp present
    exact ⟨nodup component member, same ▸ (listed.isComponent original there).2⟩
  · intro members component
    obtain ⟨original, there, same⟩ := listed.listed members component
    have present := perm.symm.subset (List.mem_map_of_mem (f := List.toFinset) there)
    obtain ⟨other, member, alike⟩ := List.mem_map.mp present
    exact ⟨other, member, alike.trans same⟩

/-! ### The components that are listed -/

/-- An ascending list is known from its members. -/
theorem eq_of_ascending {one another : List Nat} (first : one.Pairwise (· < ·))
    (second : another.Pairwise (· < ·)) (same : one.toFinset = another.toFinset) :
    one = another := by
  apply (List.perm_of_nodup_nodup_toFinset_eq (first.imp Nat.ne_of_lt) (second.imp Nat.ne_of_lt)
    same).eq_of_pairwise _ first second
  intro small large _ _ below above
  omega

/-- The packages that one package is connected with. -/
def componentOf (graph : PackageGraph) (index : Nat) : List Nat :=
  graph.indices.filter fun other =>
    (graph.reachable index).contains other && (graph.reachable other).contains index

theorem components_eq_map (graph : PackageGraph) :
    graph.components =
      (graph.indices.filter fun index => (graph.componentOf index).head? = some index).map
        graph.componentOf := by
  have connected (index : Nat) : (graph.indices.filterMap fun other =>
      if (graph.reachable index).contains other && (graph.reachable other).contains index then
        some other else none) = graph.componentOf index := by
    rw [componentOf, ← List.filterMap_eq_filter]
    rfl
  rw [← List.filterMap_eq_map, List.filterMap_filter]
  simp only [components, List.filterMap_map, Function.comp_def, connected, decide_eq_true_eq]

theorem mem_componentOf (inRange : node < graph.size) :
    other ∈ graph.componentOf node ↔ graph.Connected node other := by
  simp only [componentOf, indices, List.mem_filter, List.mem_range, Bool.and_eq_true,
    List.contains_iff_mem, mem_reachable_iff]
  exact ⟨And.right, fun connected => ⟨Connected.lt_size connected inRange, connected⟩⟩

theorem ascending_componentOf (graph : PackageGraph) (index : Nat) :
    (graph.componentOf index).Pairwise (· < ·) :=
  List.pairwise_lt_range.filter _

theorem isComponent_componentOf (inRange : node < graph.size) :
    graph.IsComponent (graph.componentOf node).toFinset :=
  isComponent_of_mem_iff inRange fun other => by rw [List.mem_toFinset, mem_componentOf inRange]

theorem componentOf_eq_of_mem (inRange : node < graph.size)
    (member : other ∈ graph.componentOf node) : graph.componentOf other = graph.componentOf node := by
  have connected := (mem_componentOf inRange).mp member
  have otherInRange := connected.lt_size inRange
  apply eq_of_ascending (graph.ascending_componentOf other) (graph.ascending_componentOf node)
  apply (isComponent_componentOf otherInRange).eq_of_mem (isComponent_componentOf inRange)
    (List.mem_toFinset.mpr ((mem_componentOf otherInRange).mpr (Connected.refl graph other)))
    (List.mem_toFinset.mpr member)

/-- Every component has a first member, which lists it. -/
theorem componentOf_mem_components (inRange : node < graph.size) :
    graph.componentOf node ∈ graph.components := by
  have member : node ∈ graph.componentOf node :=
    (mem_componentOf inRange).mpr (Connected.refl graph node)
  obtain ⟨first, rest, split⟩ := List.exists_cons_of_ne_nil (List.ne_nil_of_mem member)
  have present : first ∈ graph.componentOf node := split ▸ List.mem_cons_self
  have same := componentOf_eq_of_mem inRange present
  rw [components_eq_map, ← same]
  apply List.mem_map_of_mem
  rw [List.mem_filter, indices, List.mem_range]
  refine ⟨((mem_componentOf inRange).mp present).lt_size inRange, ?_⟩
  rw [same, split, List.head?_cons, decide_eq_true rfl]

theorem mem_components_iff (graph : PackageGraph) (component : List Nat) :
    component ∈ graph.components ↔ ∃ node < graph.size, component = graph.componentOf node := by
  constructor
  · intro member
    rw [components_eq_map] at member
    obtain ⟨node, leads, rfl⟩ := List.mem_map.mp member
    exact ⟨node, List.mem_range.mp (List.mem_filter.mp leads).1, rfl⟩
  · rintro ⟨node, inRange, rfl⟩
    exact componentOf_mem_components inRange

theorem listsComponents_components (graph : PackageGraph) :
    graph.ListsComponents graph.components := by
  refine ⟨?_, ?_, ?_⟩
  · intro component member
    obtain ⟨node, inRange, rfl⟩ := (graph.mem_components_iff component).mp member
    exact ⟨(graph.ascending_componentOf node).imp Nat.ne_of_lt, isComponent_componentOf inRange⟩
  · intro members component
    obtain ⟨node, member⟩ := component.nonempty
    have inRange := component.lt_size member
    refine ⟨graph.componentOf node, componentOf_mem_components inRange, ?_⟩
    exact (isComponent_componentOf inRange).eq_of_mem component
      (List.mem_toFinset.mpr ((mem_componentOf inRange).mpr (Connected.refl graph node))) member
  · rw [components_eq_map, List.map_map]
    apply List.Nodup.map_on
    · -- Two packages that list the same component both are its first member.
      intro one first another second same
      have equal := eq_of_ascending (graph.ascending_componentOf one)
        (graph.ascending_componentOf another) same
      have here := of_decide_eq_true (List.mem_filter.mp first).2
      have there := of_decide_eq_true (List.mem_filter.mp second).2
      rw [equal, there] at here
      exact (Option.some.inj here).symm
    · exact List.nodup_range.filter _

/-! ### Cyclic groups -/

/-- The answer that lists the cyclic groups of a graph. There is only one. -/
structure ListsCycleGroups (graph : PackageGraph) (groups : List (List Nat)) : Prop where
  /-- The groups are the largest sets of packages that reach one another, of which single packages
  count only if they depend upon themselves. -/
  exact : ∀ members : Finset Nat, (∃ group ∈ groups, group.toFinset = members) ↔
    Maximal graph.MutuallyReachable members ∧
      (1 < members.card ∨ ∃ single, members = {single} ∧ single ∈ graph.efferents single)
  once : (groups.map List.toFinset).Nodup
  ascending : ∀ group ∈ groups, group.Pairwise (· < ·)
  byFirst : groups.Pairwise fun one later =>
    ∃ first second, one.head? = some first ∧ later.head? = some second ∧ first < second
  disjoint : groups.Pairwise List.Disjoint

theorem isCyclic_iff {component : List Nat} (nodup : component.Nodup) (nonempty : component ≠ []) :
    graph.isCyclic component = true ↔ 1 < component.toFinset.card ∨
      ∃ single, component.toFinset = {single} ∧ single ∈ graph.efferents single := by
  rw [List.toFinset_card_of_nodup nodup]
  match component, nonempty with
  | [single], _ => simp [isCyclic]
  | _ :: _ :: _, _ => simp [isCyclic]

private theorem pairwise_mergeSort_key {α : Type} (key : α → Nat) (items : List α) :
    (items.mergeSort fun one other => decide (key one ≤ key other)).Pairwise fun one other =>
      key one ≤ key other := by
  have sorted := @List.pairwise_mergeSort α (fun one other => decide (key one ≤ key other))
    (by simpa using fun _ _ _ => Nat.le_trans) (by simpa using fun _ _ => Nat.le_total _ _) items
  exact sorted.imp of_decide_eq_true

private theorem ascending_mergeSort {component : List Nat} (nodup : component.Nodup) :
    (component.mergeSort fun one other => decide (one ≤ other)).Pairwise (· < ·) := by
  have distinct : (component.mergeSort fun one other => decide (one ≤ other)).Nodup :=
    (List.mergeSort_perm component _).nodup_iff.mpr nodup
  exact (pairwise_mergeSort_key id component).imp₂ (fun _ _ => Nat.lt_of_le_of_ne) distinct

section Listed

variable {components : List (List Nat)}

theorem mem_cyclicGroups_iff (graph : PackageGraph) (components : List (List Nat))
    (group : List Nat) : group ∈ graph.cyclicGroups components ↔
      ∃ component ∈ components, graph.isCyclic component = true ∧
        (component.mergeSort fun one other => decide (one ≤ other)) = group := by
  simp only [cyclicGroups, List.mem_mergeSort, List.mem_map, List.mem_filter, and_assoc]

private theorem toFinset_mergeSort (component : List Nat) :
    (component.mergeSort fun one other => decide (one ≤ other)).toFinset = component.toFinset := by
  ext node
  rw [List.mem_toFinset, List.mem_toFinset, List.mem_mergeSort]

theorem ListsComponents.isComponent_group (listed : graph.ListsComponents components) {group : List Nat}
    (member : group ∈ graph.cyclicGroups components) : graph.IsComponent group.toFinset := by
  obtain ⟨component, present, -, rfl⟩ := (mem_cyclicGroups_iff _ _ _).mp member
  rw [toFinset_mergeSort]
  exact (listed.isComponent component present).2

theorem ListsComponents.exists_group_iff (listed : graph.ListsComponents components)
    (members : Finset Nat) :
    (∃ group ∈ graph.cyclicGroups components, group.toFinset = members) ↔
      Maximal graph.MutuallyReachable members ∧
        (1 < members.card ∨ ∃ single, members = {single} ∧ single ∈ graph.efferents single) := by
  constructor
  · rintro ⟨group, member, rfl⟩
    obtain ⟨component, present, cyclic, rfl⟩ := (mem_cyclicGroups_iff _ _ _).mp member
    obtain ⟨nodup, isComponent⟩ := listed.isComponent component present
    have nonempty : component ≠ [] := List.toFinset_nonempty_iff component |>.mp isComponent.nonempty
    rw [toFinset_mergeSort]
    exact ⟨isComponent.maximal, (isCyclic_iff nodup nonempty).mp cyclic⟩
  · rintro ⟨maximal, cyclic⟩
    -- A set with a member is a component, and neither kind of cyclic set is empty.
    have nonempty : members.Nonempty := by
      rcases cyclic with several | ⟨single, rfl, -⟩
      · exact Finset.card_pos.mp (Nat.lt_of_succ_lt several)
      · exact Finset.singleton_nonempty single
    obtain ⟨component, present, rfl⟩ := listed.listed members ⟨nonempty, maximal⟩
    refine ⟨_, (mem_cyclicGroups_iff _ _ _).mpr ⟨component, present, ?_, rfl⟩,
      toFinset_mergeSort component⟩
    exact (isCyclic_iff (listed.isComponent component present).1
      ((List.toFinset_nonempty_iff component).mp nonempty)).mpr cyclic

theorem ListsComponents.nodup_groups (listed : graph.ListsComponents components) :
    ((graph.cyclicGroups components).map List.toFinset).Nodup := by
  simp only [cyclicGroups]
  rw [((List.mergeSort_perm _ _).map List.toFinset).nodup_iff, List.map_map]
  have same : (List.toFinset ∘ fun component : List Nat =>
      component.mergeSort fun one other => decide (one ≤ other)) = List.toFinset :=
    funext toFinset_mergeSort
  rw [same]
  exact listed.once.sublist (List.filter_sublist.map List.toFinset)

/-- Distinct components share no package. -/
theorem ListsComponents.disjoint_groups (listed : graph.ListsComponents components) :
    (graph.cyclicGroups components).Pairwise List.Disjoint := by
  apply (List.pairwise_map.mp listed.nodup_groups).imp_of_mem
  intro one other first second distinct node here there
  exact distinct ((listed.isComponent_group first).eq_of_mem (listed.isComponent_group second)
    (List.mem_toFinset.mpr here) (List.mem_toFinset.mpr there))

theorem ListsComponents.byFirst_groups (listed : graph.ListsComponents components) :
    (graph.cyclicGroups components).Pairwise fun one later =>
      ∃ first second, one.head? = some first ∧ later.head? = some second ∧ first < second := by
  have sorted : (graph.cyclicGroups components).Pairwise fun one other =>
      one.headD 0 ≤ other.headD 0 := pairwise_mergeSort_key (fun group : List Nat => group.headD 0) _
  apply (sorted.and listed.disjoint_groups).imp_of_mem
  rintro one later present laterPresent ⟨below, disjoint⟩
  have nonempty (group : List Nat) (member : group ∈ graph.cyclicGroups components) :
      ∃ first rest, group = first :: rest :=
    List.exists_cons_of_ne_nil
      ((List.toFinset_nonempty_iff group).mp (listed.isComponent_group member).nonempty)
  obtain ⟨first, rest, rfl⟩ := nonempty one present
  obtain ⟨second, others, rfl⟩ := nonempty later laterPresent
  -- The first members differ, as the groups share none.
  have distinct : first ≠ second := fun same =>
    disjoint List.mem_cons_self (same ▸ List.mem_cons_self)
  exact ⟨first, second, rfl, rfl, Nat.lt_of_le_of_ne below distinct⟩

theorem ListsComponents.listsCycleGroups (listed : graph.ListsComponents components) :
    graph.ListsCycleGroups (graph.cyclicGroups components) where
  exact := listed.exists_group_iff
  once := listed.nodup_groups
  ascending group member := by
    obtain ⟨component, present, -, rfl⟩ := (mem_cyclicGroups_iff _ _ _).mp member
    exact ascending_mergeSort (listed.isComponent component present).1
  byFirst := listed.byFirst_groups
  disjoint := listed.disjoint_groups

end Listed

theorem ListsCycleGroups.subset {groups others : List (List Nat)}
    (lists : graph.ListsCycleGroups groups) (alike : graph.ListsCycleGroups others) :
    groups ⊆ others := by
  intro group member
  obtain ⟨other, present, same⟩ := (alike.exact _).mpr ((lists.exact _).mp ⟨group, member, rfl⟩)
  rwa [← eq_of_ascending (alike.ascending other present) (lists.ascending group member) same]

theorem ListsCycleGroups.unique {groups others : List (List Nat)}
    (lists : graph.ListsCycleGroups groups) (alike : graph.ListsCycleGroups others) :
    groups = others := by
  have perm : groups.Perm others := by
    apply (List.perm_ext_iff_of_nodup (lists.once.of_map _) (alike.once.of_map _)).mpr
    exact fun group => ⟨fun member => lists.subset alike member, fun member => alike.subset lists member⟩
  apply perm.eq_of_pairwise _ lists.byFirst alike.byFirst
  -- No two groups stand before one another.
  rintro one other _ _ ⟨first, second, here, there, below⟩ ⟨second', first', there', here', above⟩
  rw [here] at here'
  rw [there] at there'
  cases here'
  cases there'
  omega

/-- The cyclic groups of a graph are its components that hold a cycle, each once and in the one order,
and any other list of the components leads to the same groups. -/
theorem cycleGroups_lists_components (graph : PackageGraph) :
    graph.ListsCycleGroups graph.cycleGroups ∧
      ∀ components, graph.ListsComponents components →
        graph.cyclicGroups components = graph.cycleGroups := by
  have lists := graph.listsComponents_components.listsCycleGroups
  exact ⟨lists, fun components listed => listed.listsCycleGroups.unique lists⟩

/-- Two packages that depend upon one another, the second also upon a third that depends upon itself,
and a fourth that nothing depends upon. The components are given latest first. -/
theorem cycleGroups_lists_latest_first :
    ∃ graph : PackageGraph, graph.ListsComponents [[2], [1, 0], [3]] ∧
      graph.cyclicGroups [[2], [1, 0], [3]] = graph.cycleGroups ∧
      graph.ListsCycleGroups [[0, 1], [2]] := by
  let graph := ((((((empty true).dependsUpon "a" "b").1.dependsUpon "b" "c").1.dependsUpon "b" "a").1
    |>.dependsUpon "c" "c").1.dependsUpon "d" "a").1
  have listed : graph.ListsComponents [[2], [1, 0], [3]] := by
    apply graph.listsComponents_components.of_perm
    · decide
    · decide
  have lists := cycleGroups_lists_components graph
  have same := lists.2 _ listed
  have cyclic : [[2], [1, 0], [3]].filter graph.isCyclic = [[2], [1, 0]] := by decide
  have groups : graph.cyclicGroups [[2], [1, 0], [3]] = [[0, 1], [2]] := by
    simp [cyclicGroups, cyclic, List.mergeSort, List.MergeSort.Internal.splitInTwo]
  exact ⟨graph, listed, same, groups ▸ same ▸ lists.1⟩

end PackageAudit.PackageGraph
