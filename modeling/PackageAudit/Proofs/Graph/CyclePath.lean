import PackageAudit.Graph.Cycle
import PackageAudit.Proofs.Graph.Reachability
import PackageAudit.Proofs.Graph.Requests
import Mathlib.Algebra.BigOperators.Ring.Finset
import Mathlib.Algebra.Order.BigOperators.Group.Finset
import Mathlib.Data.Finset.Card
import Mathlib.Data.Finset.Prod
/-!
What the path of a collecting walk holds.

The path is at once the stack of the walk, the set of packages it has entered and its result. Every
package on it either leads to a cycle already or leads to the package at hand, and what has been
taken out leads to no cycle; so meeting a package on the path closes a cycle or joins one, and a walk
finds a cycle exactly where there is one.

How often a package stands in the path follows from a balance: its occurrences, less the
dependencies upon it of the packages entered. Entering a package owes an occurrence to each of its
efferents, and the walk from an efferent that leads to a cycle pays it, whether it enters the efferent
or only closes a cycle there. At the end nothing is owed but the occurrence of the start.
-/

namespace PackageAudit

open Relation (ReflTransGen TransGen)

namespace CycleWalk

/-- In a path, latest first, all packages but the first are depended upon by an earlier one. -/
def Linked (efferents : Nat → List Nat) : List Nat → Prop
  | [] => True
  | node :: earlier =>
    (earlier = [] ∨ ∃ source ∈ earlier, DependsUpon efferents source node) ∧ Linked efferents earlier

/-- The occurrences of a package in a path, less the dependencies upon it of the packages there. -/
def balance (efferents : Nat → List Nat) (path : List Nat) (node : Nat) : Int :=
  path.count node - (∑ source ∈ path.toFinset, (efferents source).count node : Nat)

/-- How many packages a walk has not entered. -/
def unentered (size : Nat) (path : List Nat) : Nat := (Finset.range size \ path.toFinset).card

/-- The loop of a walk over the efferents of a package. -/
def collectAll (efferents : Nat → List Nat) (fuel : Nat) (targets : List Nat) (walk : CycleWalk)
    (found : Bool) : CycleWalk × Bool :=
  targets.foldl (fun (walk, found) efferent =>
    let (walk, closed) := collect efferents fuel efferent walk
    (walk, found || closed)) (walk, found)

variable {efferents : Nat → List Nat}

theorem collectAll_cons (fuel target : Nat) (rest : List Nat) (walk : CycleWalk) (found : Bool) :
    collectAll efferents fuel (target :: rest) walk found =
      collectAll efferents fuel rest (collect efferents fuel target walk).1
        (found || (collect efferents fuel target walk).2) := rfl

theorem collect_succ (fuel node : Nat) (walk : CycleWalk) :
    collect efferents (fuel + 1) node walk =
      if node ∈ walk.path then (⟨node :: walk.path, walk.acyclic⟩, true)
      else if node ∈ walk.acyclic then (walk, false)
      else
        let (left, found) :=
          collectAll efferents fuel (efferents node) ⟨node :: walk.path, walk.acyclic⟩ false
        if found then (left, true) else (⟨left.path.tail, node :: left.acyclic⟩, false) := rfl

/-! ### The balance of a path -/

theorem balance_nil (node : Nat) : balance efferents [] node = 0 := by simp [balance]

/-- Closing a cycle pays one occurrence. -/
theorem balance_close {path : List Nat} {closed : Nat} (member : closed ∈ path) (node : Nat) :
    balance efferents (closed :: path) node =
      balance efferents path node + if node = closed then 1 else 0 := by
  simp only [balance, List.toFinset_cons, Finset.insert_eq_of_mem (List.mem_toFinset.mpr member),
    List.count_cons, beq_iff_eq, eq_comm (a := closed)]
  split <;> push_cast <;> omega

/-- Entering a package pays one occurrence of it and owes those of its efferents. -/
theorem balance_enter {path : List Nat} {entered : Nat} (fresh : entered ∉ path) (node : Nat) :
    balance efferents (entered :: path) node =
      balance efferents path node + (if node = entered then 1 else 0) -
        (efferents entered).count node := by
  simp only [balance, List.toFinset_cons, List.count_cons, beq_iff_eq, eq_comm (a := entered),
    Finset.sum_insert (mt List.mem_toFinset.mp fresh)]
  split <;> push_cast <;> omega

/-! ### The packages not entered -/

theorem unentered_anti {size : Nat} {before after : List Nat} (grown : before <:+ after) :
    unentered size after ≤ unentered size before := by
  apply Finset.card_le_card
  intro node member
  simp only [Finset.mem_sdiff, List.mem_toFinset] at member ⊢
  exact ⟨member.1, fun entered => member.2 (grown.subset entered)⟩

theorem unentered_enter {size : Nat} {path : List Nat} {entered : Nat} (inRange : entered < size)
    (fresh : entered ∉ path) : unentered size (entered :: path) < unentered size path := by
  apply Finset.card_lt_card
  rw [Finset.ssubset_iff_of_subset]
  · exact ⟨entered, by simp [inRange, fresh], by simp⟩
  · intro node member
    simp only [Finset.mem_sdiff, List.mem_toFinset] at member ⊢
    exact ⟨member.1, fun old => member.2 (List.mem_cons_of_mem entered old)⟩

theorem unentered_nil (size : Nat) : unentered size [] < size + 1 := by simp [unentered]

/-- Entering a package takes one unit of fuel. -/
theorem unentered_enter_lt {size fuel : Nat} {path : List Nat} {entered : Nat}
    (inRange : entered < size) (fresh : entered ∉ path)
    (bound : unentered size path < fuel + 1) : unentered size (entered :: path) < fuel :=
  Nat.lt_of_lt_of_le (unentered_enter inRange fresh) (Nat.le_of_lt_succ bound)

/-! ### One walk -/

/-- What holds of the path and of the packages taken out whenever a package is walked to. -/
structure Ready (efferents : Nat → List Nat) (walk : CycleWalk) (node : Nat) : Prop where
  linked : Linked efferents walk.path
  arrives : walk.path = [] ∨ ∃ source ∈ walk.path, DependsUpon efferents source node
  onPath : ∀ entered ∈ walk.path, LeadsToCycle efferents entered ∨
    TransGen (DependsUpon efferents) entered node
  acyclic : ∀ left ∈ walk.acyclic, ¬LeadsToCycle efferents left

/-- What walking from some packages, one after the other, does. -/
structure Walked (efferents : Nat → List Nat) (starts : List Nat) (before after : CycleWalk)
    (found : Bool) : Prop where
  found_iff : found = true ↔ ∃ start ∈ starts, LeadsToCycle efferents start
  grown : before.path <:+ after.path
  begun : found = true → ∃ start ∈ starts, (start :: before.path) <:+ after.path
  unchanged : found = false → after.path = before.path
  linked : Linked efferents after.path
  entered : ∀ node ∈ after.path, node ∈ before.path ∨
    ∃ start ∈ starts, Reaches efferents start node ∧ LeadsToCycle efferents node
  acyclic : ∀ left ∈ after.acyclic, ¬LeadsToCycle efferents left
  paid : ∀ node, LeadsToCycle efferents node →
    balance efferents after.path node = balance efferents before.path node + starts.count node

theorem Walked.nil {walk : CycleWalk} (linked : Linked efferents walk.path)
    (acyclic : ∀ left ∈ walk.acyclic, ¬LeadsToCycle efferents left) :
    Walked efferents [] walk walk false where
  found_iff := by simp
  grown := List.suffix_rfl
  begun none := by cases none
  unchanged _ := rfl
  linked := linked
  entered _ member := .inl member
  acyclic := acyclic
  paid := by simp

theorem Walked.cons {start : Nat} {rest : List Nat} {before between after : CycleWalk}
    {first second : Bool} (one : Walked efferents [start] before between first)
    (others : Walked efferents rest between after second) :
    Walked efferents (start :: rest) before after (first || second) where
  found_iff := by
    rw [Bool.or_eq_true, one.found_iff, others.found_iff]
    simp
  grown := one.grown.trans others.grown
  begun some := by
    cases first with
    | true =>
      obtain ⟨other, present, suffix⟩ := one.begun rfl
      rw [List.mem_singleton.mp present] at suffix
      exact ⟨start, List.mem_cons_self, suffix.trans others.grown⟩
    | false =>
      obtain ⟨other, present, suffix⟩ := others.begun some
      rw [one.unchanged rfl] at suffix
      exact ⟨other, List.mem_cons_of_mem start present, suffix⟩
  unchanged none := by
    rw [Bool.or_eq_false_iff] at none
    rw [others.unchanged none.2, one.unchanged none.1]
  linked := others.linked
  entered node member := by
    rcases others.entered node member with old | ⟨other, present, reaches⟩
    · rcases one.entered node old with older | ⟨other, present, reaches⟩
      · exact .inl older
      · rw [List.mem_singleton.mp present] at reaches
        exact .inr ⟨start, List.mem_cons_self, reaches⟩
    · exact .inr ⟨other, List.mem_cons_of_mem start present, reaches⟩
  acyclic := others.acyclic
  paid node leads := by
    rw [others.paid node leads, one.paid node leads]
    simp only [List.count_cons, List.count_nil]
    push_cast
    omega

/-- A package on the path closes a cycle. -/
theorem Ready.close {walk : CycleWalk} {node : Nat} (ready : Ready efferents walk node)
    (member : node ∈ walk.path) :
    Walked efferents [node] walk ⟨node :: walk.path, walk.acyclic⟩ true := by
  -- What stands on the path leads to a cycle, or arrives back here and so closes one.
  have leads : LeadsToCycle efferents node :=
    (ready.onPath node member).elim id fun cyclic => OnCycle.leadsToCycle cyclic
  refine ⟨by simpa using leads, List.suffix_cons node walk.path,
    fun _ => ⟨node, List.mem_singleton_self node, List.suffix_rfl⟩, by simp,
    ⟨ready.arrives, ready.linked⟩, ?_, ready.acyclic, ?_⟩
  · intro other present
    rcases List.mem_cons.mp present with rfl | old
    · exact .inr ⟨other, List.mem_singleton_self other, ReflTransGen.refl, leads⟩
    · exact .inl old
  · intro other _
    rw [balance_close member]
    by_cases same : other = node
    · simp [same]
    · simp [same, Ne.symm same]

/-- A package that was taken out is not walked from again. -/
theorem Ready.skip {walk : CycleWalk} {node : Nat} (ready : Ready efferents walk node)
    (member : node ∈ walk.acyclic) : Walked efferents [node] walk walk false := by
  have leads := ready.acyclic node member
  -- Only packages that lead to a cycle are owed an occurrence, and this is none of them.
  refine ⟨by simpa using leads, List.suffix_rfl, by simp, fun _ => rfl, ready.linked,
    fun _ present => .inl present, ready.acyclic, ?_⟩
  intro other otherLeads
  have different : node ≠ other := fun same => leads (same ▸ otherLeads)
  simp [different]

/-- A package that is entered stays on the path if one of its efferents leads to a cycle, and is
taken out again otherwise. -/
theorem Ready.enter {walk left : CycleWalk} {node : Nat} {found : Bool}
    (ready : Ready efferents walk node) (fresh : node ∉ walk.path)
    (loop : Walked efferents (efferents node) ⟨node :: walk.path, walk.acyclic⟩ left found) :
    Walked efferents [node] walk
      (if found then left else ⟨left.path.tail, node :: left.acyclic⟩) found := by
  have leads : found = true ↔ LeadsToCycle efferents node :=
    loop.found_iff.trans leadsToCycle_iff_exists_efferent.symm
  cases found with
  | true =>
    have here := leads.mp rfl
    refine ⟨by simpa using here, (List.suffix_cons node walk.path).trans loop.grown,
      fun _ => ⟨node, List.mem_singleton_self node, loop.grown⟩, by simp, loop.linked, ?_,
      loop.acyclic, ?_⟩
    · intro other member
      rcases loop.entered other member with old | ⟨target, depends, reaches, otherLeads⟩
      · rcases List.mem_cons.mp old with rfl | older
        · exact .inr ⟨other, List.mem_singleton_self other, ReflTransGen.refl, here⟩
        · exact .inl older
      · exact .inr ⟨node, List.mem_singleton_self node, ReflTransGen.head depends reaches,
          otherLeads⟩
    · intro other otherLeads
      -- The loop has paid what entering the package owed to its efferents.
      rw [if_pos rfl, loop.paid other otherLeads, balance_enter fresh]
      by_cases same : other = node
      · simp [same]
      · simp [same, Ne.symm same]
  | false =>
    have here : ¬LeadsToCycle efferents node := fun yes => Bool.false_ne_true (leads.mpr yes)
    -- Where no efferent leads to a cycle the loop leaves the path as it was.
    have back : left.path.tail = walk.path := by rw [loop.unchanged rfl, List.tail_cons]
    rw [if_neg Bool.false_ne_true, back]
    refine ⟨by simpa using here, List.suffix_rfl, by simp, fun _ => rfl, ready.linked,
      fun _ present => .inl present, ?_, ?_⟩
    · intro other member
      rcases List.mem_cons.mp member with rfl | old
      · exact here
      · exact loop.acyclic other old
    · intro other otherLeads
      have different : node ≠ other := fun same => here (same ▸ otherLeads)
      simp [different]

/-! ### The whole recursion -/

/-- What holds inside a package whose efferents are walked to, before each of them. -/
structure Inside (efferents : Nat → List Nat) (walk : CycleWalk) (parent : Nat) : Prop where
  linked : Linked efferents walk.path
  entered : parent ∈ walk.path
  onPath : ∀ node ∈ walk.path, LeadsToCycle efferents node ∨ Reaches efferents node parent
  acyclic : ∀ left ∈ walk.acyclic, ¬LeadsToCycle efferents left

theorem Inside.ready {walk : CycleWalk} {parent target : Nat} (inside : Inside efferents walk parent)
    (depends : DependsUpon efferents parent target) : Ready efferents walk target :=
  ⟨inside.linked, .inr ⟨parent, inside.entered, depends⟩,
    fun node member => (inside.onPath node member).imp_right fun reaches =>
      TransGen.tail' reaches depends,
    inside.acyclic⟩

theorem Ready.inside {walk : CycleWalk} {node : Nat} (ready : Ready efferents walk node) :
    Inside efferents ⟨node :: walk.path, walk.acyclic⟩ node := by
  refine ⟨⟨ready.arrives, ready.linked⟩, List.mem_cons_self, ?_, ready.acyclic⟩
  intro other member
  rcases List.mem_cons.mp member with rfl | old
  · exact .inr ReflTransGen.refl
  · exact (ready.onPath other old).imp_right fun reaches => reaches.to_reflTransGen

/-- The path grows by packages that lead to a cycle only, so it stays ready for the next target. -/
theorem Inside.next {walk after : CycleWalk} {parent target : Nat} {found : Bool}
    (inside : Inside efferents walk parent) (walked : Walked efferents [target] walk after found) :
    Inside efferents after parent := by
  refine ⟨walked.linked, walked.grown.subset inside.entered, ?_, walked.acyclic⟩
  intro node member
  rcases walked.entered node member with old | ⟨_, _, _, leads⟩
  · exact inside.onPath node old
  · exact .inl leads

theorem collectAll_walked {size fuel parent : Nat}
    (closed : ∀ source, ∀ target ∈ efferents source, target < size)
    (step : ∀ node walk, node < size → unentered size walk.path < fuel → Ready efferents walk node →
      Walked efferents [node] walk (collect efferents fuel node walk).1
        (collect efferents fuel node walk).2)
    (targets : List Nat) (depends : ∀ target ∈ targets, DependsUpon efferents parent target)
    (walk : CycleWalk) (known : Bool) (bound : unentered size walk.path < fuel)
    (inside : Inside efferents walk parent) :
    ∃ found, (collectAll efferents fuel targets walk known).2 = (known || found) ∧
      Walked efferents targets walk (collectAll efferents fuel targets walk known).1 found := by
  induction targets generalizing walk known with
  | nil => exact ⟨false, (Bool.or_false known).symm, Walked.nil inside.linked inside.acyclic⟩
  | cons target rest ih =>
    have here := depends target List.mem_cons_self
    have first := step target walk (closed parent target here) bound (inside.ready here)
    rw [collectAll_cons]
    obtain ⟨found, result, others⟩ := ih
      (fun other member => depends other (List.mem_cons_of_mem target member))
      (collect efferents fuel target walk).1 (known || (collect efferents fuel target walk).2)
      (Nat.lt_of_le_of_lt (unentered_anti first.grown) bound) (inside.next first)
    exact ⟨_, by rw [result, Bool.or_assoc], first.cons others⟩

/-- With enough fuel for every package not entered, a walk finds exactly the cycles it leads to. -/
theorem collect_walked {size : Nat}
    (closed : ∀ source, ∀ target ∈ efferents source, target < size) (fuel : Nat) :
    ∀ node walk, node < size → unentered size walk.path < fuel → Ready efferents walk node →
      Walked efferents [node] walk (collect efferents fuel node walk).1
        (collect efferents fuel node walk).2 := by
  -- Entering a package uses up one that was not entered, as one step of the recursion does fuel.
  induction fuel with
  | zero => exact fun _ _ _ bound _ => absurd bound (Nat.not_lt_zero _)
  | succ fuel ih =>
    intro node walk inRange bound ready
    rw [collect_succ]
    split
    next member => exact ready.close member
    next fresh =>
      split
      next member => exact ready.skip member
      next =>
        obtain ⟨found, result, loop⟩ := collectAll_walked closed ih (efferents node)
          (fun _ member => member) ⟨node :: walk.path, walk.acyclic⟩ false
          (unentered_enter_lt inRange fresh bound)
          ready.inside
        have entered := ready.enter fresh loop
        rw [Bool.false_or] at result
        cases found with
        | true => simpa [result] using entered
        | false => simpa [result] using entered

end CycleWalk

/-! ### The path of a graph -/

namespace CycleWalk

variable {efferents : Nat → List Nat}

theorem Linked.exists_source {later earlier : List Nat} {node : Nat}
    (linked : Linked efferents (later ++ node :: earlier)) (notFirst : earlier ≠ []) :
    ∃ source ∈ earlier, DependsUpon efferents source node := by
  induction later with
  | nil => exact linked.1.resolve_left notFirst
  | cons last rest ih => exact ih linked.2

/-- At the end of a whole walk nothing is owed but the occurrence of the start. -/
theorem Walked.count_eq {start node : Nat} {after : CycleWalk} {found : Bool}
    (walked : Walked efferents [start] ⟨[], []⟩ after found) (leads : LeadsToCycle efferents node) :
    after.path.count node =
      (∑ source ∈ after.path.toFinset, (efferents source).count node) +
        if node = start then 1 else 0 := by
  have paid := walked.paid node leads
  have single : [start].count node = if node = start then 1 else 0 := by
    by_cases same : node = start
    · simp [same]
    · simp [same, Ne.symm same]
  rw [balance_nil, balance, single] at paid
  omega

/-- A whole walk that finds a cycle stays on all it reaches that lead to one. -/
theorem Walked.mem_path {start node : Nat} {after : CycleWalk} {found : Bool}
    (walked : Walked efferents [start] ⟨[], []⟩ after found)
    (reaches : Reaches efferents start node) (leads : LeadsToCycle efferents node) :
    node ∈ after.path := by
  induction reaches with
  | refl =>
    have occurs := walked.count_eq leads
    rw [if_pos rfl] at occurs
    exact List.count_pos_iff.mp (by omega)
  | @tail source node _ depends ih =>
    -- An entered source owes its target an occurrence, so the count of the target is positive.
    have entered := List.mem_toFinset.mpr (ih (leads.of_dependsUpon depends))
    have owed := Finset.single_le_sum
      (fun other _ => Nat.zero_le ((efferents other).count node)) entered
    have here := List.count_pos_iff.mpr depends
    have occurs := walked.count_eq leads
    exact List.count_pos_iff.mp (by omega)

end CycleWalk

namespace PackageGraph

open CycleWalk

variable {graph : PackageGraph} {start : Nat}

theorem cyclePath_walked (wellFormed : graph.WellFormed) (inGraph : start < graph.size) :
    ∃ after : CycleWalk, (graph.cyclePath start).path = after.path.reverse ∧
      Walked graph.efferents [start] ⟨[], []⟩ after (graph.cyclePath start).containsCycle := by
  have bound := unentered_nil graph.size
  exact ⟨_, rfl, collect_walked wellFormed.efferents_lt (graph.size + 1) start ⟨[], []⟩ inGraph
    bound ⟨trivial, .inl rfl, by simp, by simp⟩⟩

theorem toFinset_path (wellFormed : graph.WellFormed) (inGraph : start < graph.size)
    {after : CycleWalk} {found : Bool}
    (walked : Walked graph.efferents [start] ⟨[], []⟩ after found) :
    after.path.toFinset = graph.cyclicPart start := by
  ext node
  rw [List.mem_toFinset, wellFormed.mem_cyclicPart inGraph]
  constructor
  · intro member
    rcases walked.entered node member with old | ⟨other, same, both⟩
    · cases old
    · rwa [List.mem_singleton.mp same] at both
  · exact fun both => walked.mem_path both.1 both.2

/-- The occurrences of all packages in the path are one for the start and one for each dependency
inside the cyclic part. -/
theorem sum_occurrences (part : Finset Nat) (efferents : Nat → List Nat) (member : start ∈ part) :
    (∑ node ∈ part, ((part.filter fun source => node ∈ efferents source).card +
      if node = start then 1 else 0)) =
    1 + ((part ×ˢ part).filter fun edge => edge.2 ∈ efferents edge.1).card := by
  have one : ∑ node ∈ part, (if node = start then 1 else 0) = 1 := by
    rw [Finset.sum_ite_eq' part start, if_pos member]
  have inner : ((part ×ˢ part).filter fun edge => edge.2 ∈ efferents edge.1).card =
      ∑ node ∈ part, (part.filter fun source => node ∈ efferents source).card := by
    simp only [Finset.card_filter]
    rw [Finset.sum_product_right]
  rw [Finset.sum_add_distrib, one, inner, Nat.add_comm]

/-- From a start that leads to no cycle the path is empty. From any other it begins with the start
and lists the cyclic part of what the start reaches, each package once for every dependency upon it
from within that part, behind a package that has the dependency. -/
theorem cyclePath_lists_cyclicPart (wellFormed : graph.WellFormed) (inGraph : start < graph.size) :
    ((graph.cyclePath start).containsCycle = true ↔ start ∈ graph.cyclicPart start) ∧
    (start ∉ graph.cyclicPart start → (graph.cyclePath start).path = []) ∧
    (start ∈ graph.cyclicPart start →
      (graph.cyclePath start).path.head? = some start ∧
      (∀ node, node ∈ (graph.cyclePath start).path ↔ node ∈ graph.cyclicPart start) ∧
      (∀ earlier node later, (graph.cyclePath start).path = earlier ++ node :: later →
        earlier ≠ [] → ∃ source ∈ earlier, node ∈ graph.efferents source) ∧
      (∀ node ∈ graph.cyclicPart start, (graph.cyclePath start).path.count node =
        ((graph.cyclicPart start).filter fun source => node ∈ graph.efferents source).card +
          if node = start then 1 else 0) ∧
      (graph.cyclePath start).path.length =
        1 + ((graph.cyclicPart start ×ˢ graph.cyclicPart start).filter fun edge =>
          edge.2 ∈ graph.efferents edge.1).card) := by
  obtain ⟨after, path, walked⟩ := cyclePath_walked wellFormed inGraph
  have part := toFinset_path wellFormed inGraph walked
  have found : (graph.cyclePath start).containsCycle = true ↔ start ∈ graph.cyclicPart start := by
    rw [walked.found_iff, wellFormed.mem_cyclicPart inGraph]
    simp [Reaches, ReflTransGen.refl]
  have counts (node : Nat) (member : node ∈ graph.cyclicPart start) : after.path.count node =
      ((graph.cyclicPart start).filter fun source => node ∈ graph.efferents source).card +
        if node = start then 1 else 0 := by
    rw [walked.count_eq ((wellFormed.mem_cyclicPart inGraph).mp member).2, part,
      Finset.card_filter]
    congr 1
    exact Finset.sum_congr rfl fun source _ => (wellFormed.efferents_nodup source).count
  refine ⟨found, ?_, ?_⟩
  · intro outside
    rw [path, walked.unchanged (Bool.eq_false_iff.mpr (mt found.mp outside))]
    rfl
  · intro inside
    refine ⟨?_, ?_, ?_, ?_, ?_⟩
    · obtain ⟨first, same, later, split⟩ := walked.begun (found.mpr inside)
      rw [path, ← split, List.mem_singleton.mp same]
      simp
    · intro node
      rw [path, List.mem_reverse, ← part, List.mem_toFinset]
    · intro earlier node later split notFirst
      -- The walk holds its path latest first.
      have reversed : after.path = later.reverse ++ node :: earlier.reverse := by
        rw [← List.reverse_reverse after.path, ← path, split]
        simp
      have linked := walked.linked
      rw [reversed] at linked
      obtain ⟨source, member, depends⟩ := linked.exists_source (by simpa using notFirst)
      exact ⟨source, List.mem_reverse.mp member, depends⟩
    · intro node member
      rw [path, List.count_reverse]
      exact counts node member
    · rw [path, List.length_reverse, ← List.sum_toFinset_count_eq_length, part,
        Finset.sum_congr rfl counts]
      exact sum_occurrences _ _ inside

/-- Two packages that depend upon one another, the second also upon a third that leads nowhere. -/
theorem cyclePath_lists_two_way :
    ∃ graph : PackageGraph, graph.WellFormed ∧ 0 < graph.size ∧ graph.efferents 1 = [2, 0] ∧
      0 ∈ graph.cyclicPart 0 ∧ (graph.cyclePath 0).path = [0, 1, 0] ∧
      ∀ node, node ∈ (graph.cyclePath 0).path ↔ node ∈ graph.cyclicPart 0 := by
  have records := (((records_empty false).dependsUpon "a" "b").dependsUpon "b" "c").dependsUpon "b" "a"
  have exact := @cyclePath_lists_cyclicPart _ 0 records.wellFormed (by decide)
  have inside := exact.1.mp (by decide)
  exact ⟨_, records.wellFormed, by decide, by decide, inside, by decide, (exact.2.2 inside).2.1⟩

end PackageGraph

end PackageAudit
