import PackageAudit.Proofs.Graph.CycleGroups
import PackageAudit.Proofs.Graph.CyclePath
/-!
Whether a package can reach a cycle.

Three computations answer this: the finding walk, which stops at the first cycle it closes, the
collecting walk, which goes on, and the cyclic groups, which are found without walking along a path.
All three are compared with the relation `LeadsToCycle`, and so agree with one another.

The path of a finding walk is its stack and nothing else, so all of it leads to the package at hand;
a package met again there closes a cycle.
-/

namespace PackageAudit

open Relation (ReflTransGen TransGen)

namespace CycleWalk

/-- The loop of a finding walk over the efferents of a package. -/
def findAny (efferents : Nat → List Nat) (fuel : Nat) (path targets : List Nat)
    (known : Bool × List Nat) : Bool × List Nat :=
  targets.foldl (fun (found, acyclic) efferent =>
    if found then (true, acyclic) else find efferents fuel path efferent acyclic) known

variable {efferents : Nat → List Nat}

theorem findAny_cons (fuel : Nat) (path : List Nat) (target : Nat) (rest acyclic : List Nat) :
    findAny efferents fuel path (target :: rest) (false, acyclic) =
      findAny efferents fuel path rest (find efferents fuel path target acyclic) := rfl

/-- Nothing is walked to once a cycle is found. -/
theorem findAny_found (fuel : Nat) (path targets acyclic : List Nat) :
    findAny efferents fuel path targets (true, acyclic) = (true, acyclic) := by
  induction targets with
  | nil => rfl
  | cons target rest ih => exact ih

theorem find_succ (fuel : Nat) (path : List Nat) (node : Nat) (acyclic : List Nat) :
    find efferents (fuel + 1) path node acyclic =
      if node ∈ path then (true, acyclic)
      else if node ∈ acyclic then (false, acyclic)
      else
        let (found, acyclic) :=
          findAny efferents fuel (node :: path) (efferents node) (false, acyclic)
        if found then (true, acyclic) else (false, node :: acyclic) := rfl

/-- What a finding walk answers for some packages: whether one of them leads to a cycle, and packages
that lead to none. -/
structure Found (efferents : Nat → List Nat) (starts : List Nat) (answer : Bool × List Nat) :
    Prop where
  found_iff : answer.1 = true ↔ ∃ start ∈ starts, LeadsToCycle efferents start
  acyclic : ∀ left ∈ answer.2, ¬LeadsToCycle efferents left

theorem findAny_answers {size fuel : Nat} {path : List Nat}
    (step : ∀ node acyclic, node < size →
      (∀ entered ∈ path, TransGen (DependsUpon efferents) entered node) →
      (∀ left ∈ acyclic, ¬LeadsToCycle efferents left) →
      Found efferents [node] (find efferents fuel path node acyclic))
    (targets acyclic : List Nat) (inRange : ∀ target ∈ targets, target < size)
    (onPath : ∀ target ∈ targets, ∀ entered ∈ path,
      TransGen (DependsUpon efferents) entered target)
    (sound : ∀ left ∈ acyclic, ¬LeadsToCycle efferents left) :
    Found efferents targets (findAny efferents fuel path targets (false, acyclic)) := by
  induction targets generalizing acyclic with
  | nil => exact ⟨by simp [findAny], sound⟩
  | cons target rest ih =>
    have first := step target acyclic (inRange target List.mem_cons_self)
      (onPath target List.mem_cons_self) sound
    rw [findAny_cons]
    rcases answer : find efferents fuel path target acyclic with ⟨found, left⟩
    rw [answer] at first
    cases found with
    | true =>
      -- The loop ends here, and what is known to lead nowhere is what this one walk left.
      rw [findAny_found]
      have leads := first.found_iff.mp rfl
      exact ⟨by simpa using .inl (by simpa using leads), first.acyclic⟩
    | false =>
      have none : ¬LeadsToCycle efferents target := fun leads =>
        Bool.false_ne_true (first.found_iff.mpr ⟨target, List.mem_singleton_self target, leads⟩)
      have others := ih left (fun other member => inRange other (List.mem_cons_of_mem target member))
        (fun other member => onPath other (List.mem_cons_of_mem target member)) first.acyclic
      refine ⟨others.found_iff.trans ?_, others.acyclic⟩
      simp [none]

/-- With enough fuel for every package not on the path, a finding walk finds a cycle exactly where
there is one. -/
theorem find_answers {size : Nat}
    (closed : ∀ source, ∀ target ∈ efferents source, target < size) (fuel : Nat) :
    ∀ path node acyclic, node < size → unentered size path < fuel →
      (∀ entered ∈ path, TransGen (DependsUpon efferents) entered node) →
      (∀ left ∈ acyclic, ¬LeadsToCycle efferents left) →
      Found efferents [node] (find efferents fuel path node acyclic) := by
  induction fuel with
  | zero => exact fun _ _ _ _ bound _ _ => absurd bound (Nat.not_lt_zero _)
  | succ fuel ih =>
    intro path node acyclic inRange bound onPath sound
    rw [find_succ]
    split
    next member =>
      -- All of the path leads to the package, so the package leads back to itself.
      have leads : LeadsToCycle efferents node := OnCycle.leadsToCycle (onPath node member)
      exact ⟨by simpa using leads, sound⟩
    next fresh =>
      split
      next member => exact ⟨by simpa using sound node member, sound⟩
      next =>
        have below : unentered size (node :: path) < fuel :=
          unentered_enter_lt inRange fresh bound
        have loop := findAny_answers
          (fun target acyclic inRange => ih (node :: path) target acyclic inRange below)
          (efferents node) acyclic (closed node)
          (by
            intro target depends entered member
            rcases List.mem_cons.mp member with rfl | old
            · exact TransGen.single depends
            · exact (onPath entered old).tail depends)
          sound
        have leads := loop.found_iff.trans leadsToCycle_iff_exists_efferent.symm
        rcases answer : findAny efferents fuel (node :: path) (efferents node) (false, acyclic) with
          ⟨found, left⟩
        rw [answer] at loop leads
        cases found with
        | true => exact ⟨by simpa using leads.mp rfl, loop.acyclic⟩
        | false =>
          have none : ¬LeadsToCycle efferents node := fun yes =>
            Bool.false_ne_true (leads.mpr yes)
          refine ⟨by simpa using none, ?_⟩
          intro other member
          rcases List.mem_cons.mp member with rfl | old
          · exact none
          · exact loop.acyclic other old

end CycleWalk

namespace PackageGraph

open CycleWalk

variable {graph : PackageGraph} {start node : Nat}

theorem WellFormed.reachesCycle_iff (wellFormed : graph.WellFormed) (inGraph : start < graph.size) :
    graph.reachesCycle start = true ↔ LeadsToCycle graph.efferents start := by
  have bound := unentered_nil graph.size
  have answer := find_answers wellFormed.efferents_lt (graph.size + 1) [] start [] inGraph bound
    (by simp) (by simp)
  simpa [reachesCycle] using answer.found_iff

theorem WellFormed.containsCycle_iff (wellFormed : graph.WellFormed) (inGraph : start < graph.size) :
    (graph.cyclePath start).containsCycle = true ↔ LeadsToCycle graph.efferents start := by
  obtain ⟨after, -, walked⟩ := cyclePath_walked wellFormed inGraph
  simpa using walked.found_iff

theorem WellFormed.path_ne_nil_iff (wellFormed : graph.WellFormed) (inGraph : start < graph.size) :
    (graph.cyclePath start).path ≠ [] ↔ LeadsToCycle graph.efferents start := by
  rw [← wellFormed.containsCycle_iff inGraph]
  obtain ⟨after, path, walked⟩ := cyclePath_walked wellFormed inGraph
  rw [path, Ne, List.reverse_eq_nil_iff]
  -- A walk that found a cycle keeps its start on the path; any other takes it out again.
  cases found : (graph.cyclePath start).containsCycle with
  | true =>
    obtain ⟨first, -, begun⟩ := walked.begun found
    simpa using List.ne_nil_of_mem (begun.subset List.mem_cons_self)
  | false => simp [walked.unchanged found]

theorem WellFormed.path_lt (wellFormed : graph.WellFormed) (inGraph : start < graph.size)
    (member : node ∈ (graph.cyclePath start).path) : node < graph.size := by
  obtain ⟨after, path, walked⟩ := cyclePath_walked wellFormed inGraph
  rw [path, List.mem_reverse] at member
  rcases walked.entered node member with old | ⟨first, same, reaches, -⟩
  · cases old
  · rw [List.mem_singleton.mp same] at reaches
    exact wellFormed.reaches_lt inGraph reaches

/-- A path that is not empty begins where the walk began. -/
theorem WellFormed.head?_path (wellFormed : graph.WellFormed) (inGraph : start < graph.size)
    (nonempty : (graph.cyclePath start).path ≠ []) :
    (graph.cyclePath start).path.head? = some start := by
  have found := (wellFormed.containsCycle_iff inGraph).mpr
    ((wellFormed.path_ne_nil_iff inGraph).mp nonempty)
  obtain ⟨after, path, walked⟩ := cyclePath_walked wellFormed inGraph
  obtain ⟨first, same, later, split⟩ := walked.begun found
  rw [path, ← split, List.mem_singleton.mp same]
  simp

/-! ### Cyclic groups -/

/-- A package that reaches another one and is reached from it stands on a cycle. -/
theorem Connected.onCycle {other : Nat} (connected : graph.Connected node other)
    (distinct : node ≠ other) : OnCycle graph.efferents node := by
  have onward : TransGen (DependsUpon graph.efferents) node other :=
    (Relation.reflTransGen_iff_eq_or_transGen.mp connected.1).resolve_left (Ne.symm distinct)
  exact onward.trans_left connected.2

theorem onCycle_iff_mem_cycleGroups (graph : PackageGraph) (node : Nat) :
    OnCycle graph.efferents node ↔ ∃ group ∈ graph.cycleGroups, node ∈ group := by
  have lists := graph.listsComponents_components.listsCycleGroups
  constructor
  · intro cyclic
    obtain ⟨next, depends, back⟩ := TransGen.head'_iff.mp cyclic
    have inRange : node < graph.size := lt_size_of_depends depends
    have component : graph.IsComponent (graph.componentOf node).toFinset :=
      isComponent_componentOf inRange
    have member := List.mem_toFinset.mpr
      ((mem_componentOf inRange).mpr (Connected.refl graph node))
    have nextMember := (component.mem_iff member).mpr ⟨ReflTransGen.single depends, back⟩
    -- The next package on the cycle is another one, or the package depends upon itself.
    have counts : 1 < (graph.componentOf node).toFinset.card ∨
        ∃ single, (graph.componentOf node).toFinset = {single} ∧
          single ∈ graph.efferents single := by
      by_cases several : 1 < (graph.componentOf node).toFinset.card
      · exact .inl several
      · obtain ⟨single, alone⟩ := Finset.card_eq_one.mp
          (Nat.le_antisymm (Nat.le_of_not_lt several) (Finset.card_pos.mpr component.nonempty))
        rw [alone, Finset.mem_singleton] at member nextMember
        subst member
        subst nextMember
        exact .inr ⟨_, alone, depends⟩
    obtain ⟨group, present, same⟩ := (lists.exact _).mpr ⟨component.maximal, counts⟩
    exact ⟨group, present, List.mem_toFinset.mp (same ▸ member)⟩
  · rintro ⟨group, present, member⟩
    obtain ⟨maximal, several | ⟨single, alone, depends⟩⟩ := (lists.exact _).mp ⟨group, present, rfl⟩
    · obtain ⟨other, there, distinct⟩ := Finset.exists_mem_ne several node
      have component : graph.IsComponent group.toFinset := ⟨⟨other, there⟩, maximal⟩
      exact ((component.mem_iff (List.mem_toFinset.mpr member)).mp there).onCycle distinct.symm
    · have same : node = single := by
        rw [← Finset.mem_singleton, ← alone, List.mem_toFinset]
        exact member
      subst same
      exact TransGen.single depends

theorem leadsToCycle_iff_reaches_group (graph : PackageGraph) (start : Nat) :
    LeadsToCycle graph.efferents start ↔
      ∃ group ∈ graph.cycleGroups, ∃ member ∈ group, Reaches graph.efferents start member := by
  constructor
  · rintro ⟨member, reaches, cyclic⟩
    obtain ⟨group, present, inGroup⟩ := (graph.onCycle_iff_mem_cycleGroups member).mp cyclic
    exact ⟨group, present, member, inGroup, reaches⟩
  · rintro ⟨group, present, member, inGroup, reaches⟩
    exact ⟨member, reaches, (graph.onCycle_iff_mem_cycleGroups member).mpr ⟨group, present, inGroup⟩⟩

/-- Every cyclic group has a member, which leads to a cycle. -/
theorem cycleGroups_ne_nil_iff (graph : PackageGraph) :
    graph.cycleGroups ≠ [] ↔ ∃ start < graph.size, LeadsToCycle graph.efferents start := by
  have lists := graph.listsComponents_components
  constructor
  · intro some
    obtain ⟨group, present⟩ := List.exists_mem_of_ne_nil _ some
    have component := lists.isComponent_group present
    obtain ⟨member, inGroup⟩ := component.nonempty
    exact ⟨member, component.lt_size inGroup, OnCycle.leadsToCycle
      ((graph.onCycle_iff_mem_cycleGroups member).mpr ⟨group, present, List.mem_toFinset.mp inGroup⟩)⟩
  · rintro ⟨start, -, leads⟩
    obtain ⟨group, present, -⟩ := (graph.leadsToCycle_iff_reaches_group start).mp leads
    exact List.ne_nil_of_mem present

theorem WellFormed.containsCycles_iff (wellFormed : graph.WellFormed) :
    graph.containsCycles = true ↔ ∃ start < graph.size, LeadsToCycle graph.efferents start := by
  simp only [containsCycles, indices, List.any_eq_true, List.mem_range]
  exact exists_congr fun start => and_congr_right wellFormed.reachesCycle_iff

end PackageGraph

end PackageAudit
