import PackageAudit.Proofs.Graph.CyclePath
/-!
The collecting walk beside an exhaustive one.

The exhaustive walk remembers nothing but its path, and walks anew from a package that led nowhere
whenever it meets it. The collecting walk passes over such a package. That leaves out nothing: the
package leads to no cycle, and it reaches nothing that stands on the path, for all of the path leads
to a cycle or to the package itself. So a new walk from it would put packages on the path and take
all of them out again.
-/

namespace PackageAudit

open Relation (ReflTransGen TransGen)

namespace CycleWalk

/-- The exhaustive walk from some packages, one after the other: the path before and after it, latest
first, and whether it closed a cycle. -/
inductive Explores (efferents : Nat → List Nat) : List Nat → List Nat → List Nat → Bool → Prop
  | done (path : List Nat) : Explores efferents [] path path false
  /-- A package that already stands in the path is appended once more and not entered. -/
  | close {node : Nat} {rest path last : List Nat} {found : Bool} (member : node ∈ path)
      (onward : Explores efferents rest (node :: path) last found) :
      Explores efferents (node :: rest) path last true
  | keep {node : Nat} {rest path inner last : List Nat} {found : Bool} (fresh : node ∉ path)
      (within : Explores efferents (efferents node) (node :: path) inner true)
      (onward : Explores efferents rest inner last found) :
      Explores efferents (node :: rest) path last true
  /-- A package whose efferents closed no cycle is taken out again. -/
  | leave {node : Nat} {rest path inner last : List Nat} {found : Bool} (fresh : node ∉ path)
      (within : Explores efferents (efferents node) (node :: path) inner false)
      (onward : Explores efferents rest inner.tail last found) :
      Explores efferents (node :: rest) path last found

variable {efferents : Nat → List Nat} {starts others before between after last : List Nat}
  {first second found : Bool}

theorem Explores.append (one : Explores efferents starts before between first)
    (other : Explores efferents others between after second) :
    Explores efferents (starts ++ others) before after (first || second) := by
  induction one with
  | done => exact other
  | close member _ ih => exact .close member (ih other)
  | keep fresh within _ _ ih => exact .keep fresh within (ih other)
  | leave fresh within _ _ ih => exact .leave fresh within (ih other)

/-- An exhaustive walk has one outcome. -/
theorem Explores.unique (one : Explores efferents starts before after first)
    (other : Explores efferents starts before last second) : after = last ∧ first = second := by
  induction one generalizing last second with
  | done => cases other; exact ⟨rfl, rfl⟩
  | close member _ ih =>
    cases other with
    | close _ onward => exact ⟨(ih onward).1, rfl⟩
    | keep fresh => exact absurd member fresh
    | leave fresh => exact absurd member fresh
  | keep fresh _ _ ihWithin ih =>
    cases other with
    | close member => exact absurd member fresh
    | keep _ within onward =>
      obtain ⟨rfl, -⟩ := ihWithin within
      exact ⟨(ih onward).1, rfl⟩
    | leave _ within => exact absurd (ihWithin within).2 Bool.noConfusion
  | leave fresh _ _ ihWithin ih =>
    cases other with
    | close member => exact absurd member fresh
    | keep _ within => exact absurd (ihWithin within).2 Bool.noConfusion
    | leave _ within onward =>
      obtain ⟨rfl, -⟩ := ihWithin within
      exact ih onward

/-! ### A package that leads nowhere -/

theorem explores_nothing {path : List Nat} (targets : List Nat)
    (each : ∀ target ∈ targets, Explores efferents [target] path path false) :
    Explores efferents targets path path false := by
  induction targets with
  | nil => exact .done path
  | cons target rest ih =>
    have others := ih fun other member => each other (List.mem_cons_of_mem target member)
    exact (each target List.mem_cons_self).append others

/-- The exhaustive walk leaves its path as it was behind a package that leads to no cycle and reaches
nothing on the path. -/
theorem explores_of_not_leadsToCycle {size : Nat}
    (closed : ∀ source, ∀ target ∈ efferents source, target < size) (fuel : Nat) :
    ∀ node path, node < size → unentered size path < fuel → ¬LeadsToCycle efferents node →
      (∀ entered ∈ path, ¬Reaches efferents node entered) →
      Explores efferents [node] path path false := by
  induction fuel with
  | zero => exact fun _ _ _ bound _ _ => absurd bound (Nat.not_lt_zero _)
  | succ fuel ih =>
    intro node path inRange bound none apart
    have fresh : node ∉ path := fun member => apart node member ReflTransGen.refl
    refine .leave fresh (explores_nothing (efferents node) ?_) (.done path)
    intro target depends
    apply ih target (node :: path) (closed node target depends)
      (unentered_enter_lt inRange fresh bound)
      fun leads => none (leads.of_dependsUpon depends)
    intro entered member reaches
    rcases List.mem_cons.mp member with rfl | old
    · -- Coming back to the package would close a cycle.
      exact none (OnCycle.leadsToCycle (TransGen.head' depends reaches))
    · exact apart entered old (ReflTransGen.head depends reaches)

/-- What has been taken out reaches nothing on the path. -/
theorem Ready.apart {walk : CycleWalk} {node : Nat} (ready : Ready efferents walk node)
    (none : ¬LeadsToCycle efferents node) :
    ∀ entered ∈ walk.path, ¬Reaches efferents node entered := by
  intro entered member reaches
  rcases ready.onPath entered member with leads | back
  · exact none (leads.of_reaches reaches)
  · exact none (OnCycle.leadsToCycle (TransGen.trans_right reaches back))

/-! ### The two walks together -/

theorem collectAll_explores {size fuel parent : Nat}
    (closed : ∀ source, ∀ target ∈ efferents source, target < size)
    (step : ∀ node walk, node < size → unentered size walk.path < fuel → Ready efferents walk node →
      Explores efferents [node] walk.path (collect efferents fuel node walk).1.path
        (collect efferents fuel node walk).2)
    (targets : List Nat) (depends : ∀ target ∈ targets, DependsUpon efferents parent target)
    (walk : CycleWalk) (known : Bool) (bound : unentered size walk.path < fuel)
    (inside : Inside efferents walk parent) :
    ∃ found, (collectAll efferents fuel targets walk known).2 = (known || found) ∧
      Explores efferents targets walk.path
        (collectAll efferents fuel targets walk known).1.path found := by
  induction targets generalizing walk known with
  | nil => exact ⟨false, (Bool.or_false known).symm, .done walk.path⟩
  | cons target rest ih =>
    have here := depends target List.mem_cons_self
    have inRange := closed parent target here
    have walked := collect_walked closed fuel target walk inRange bound (inside.ready here)
    have one := step target walk inRange bound (inside.ready here)
    rw [collectAll_cons]
    obtain ⟨found, result, onward⟩ := ih
      (fun other member => depends other (List.mem_cons_of_mem target member))
      (collect efferents fuel target walk).1 (known || (collect efferents fuel target walk).2)
      (Nat.lt_of_le_of_lt (unentered_anti walked.grown) bound) (inside.next walked)
    exact ⟨_, by rw [result, Bool.or_assoc], one.append onward⟩

/-- With enough fuel for every package not entered, the collecting walk leaves behind what the
exhaustive one does. -/
theorem collect_explores {size : Nat}
    (closed : ∀ source, ∀ target ∈ efferents source, target < size) (fuel : Nat) :
    ∀ node walk, node < size → unentered size walk.path < fuel → Ready efferents walk node →
      Explores efferents [node] walk.path (collect efferents fuel node walk).1.path
        (collect efferents fuel node walk).2 := by
  induction fuel with
  | zero => exact fun _ _ _ bound _ => absurd bound (Nat.not_lt_zero _)
  | succ fuel ih =>
    intro node walk inRange bound ready
    rw [collect_succ]
    split
    next member => exact .close member (.done (node :: walk.path))
    next fresh =>
      split
      next member =>
        have none := ready.acyclic node member
        exact explores_of_not_leadsToCycle closed (fuel + 1) node walk.path inRange bound none
          (ready.apart none)
      next =>
        obtain ⟨found, result, within⟩ := collectAll_explores closed ih (efferents node)
          (fun _ member => member) ⟨node :: walk.path, walk.acyclic⟩ false
          (unentered_enter_lt inRange fresh bound)
          ready.inside
        rw [Bool.false_or] at result
        cases found with
        | true => simpa [result] using Explores.keep fresh within (.done _)
        | false => simpa [result] using Explores.leave fresh within (.done _)

end CycleWalk

namespace PackageGraph

open CycleWalk

/-- The exhaustive walk from a package comes to an end, and with the path and the answer of the
collecting walk alone. -/
theorem explores_iff_cyclePath {graph : PackageGraph} {start : Nat} (wellFormed : graph.WellFormed)
    (inGraph : start < graph.size) (path : List Nat) (found : Bool) :
    Explores graph.efferents [start] [] path found ↔
      (graph.cyclePath start).path = path.reverse ∧
        (graph.cyclePath start).containsCycle = found := by
  have bound := unentered_nil graph.size
  have explored := collect_explores wellFormed.efferents_lt (graph.size + 1) start ⟨[], []⟩ inGraph
    bound ⟨trivial, .inl rfl, by simp, by simp⟩
  constructor
  · intro other
    obtain ⟨rfl, rfl⟩ := explored.unique other
    exact ⟨rfl, rfl⟩
  · rintro ⟨samePath, rfl⟩
    rw [← List.reverse_reverse path, ← samePath]
    simpa [cyclePath] using explored

/-- The second package leads nowhere and is met twice before a cycle closes. -/
theorem explores_past_dead_end :
    ∃ graph : PackageGraph, graph.WellFormed ∧ 0 < graph.size ∧ graph.efferents 0 = [1, 2] ∧
      graph.efferents 2 = [1, 3] ∧ (graph.cyclePath 0).path = [0, 2, 3, 2] ∧
      Explores graph.efferents [0] [] [2, 3, 2, 0] true := by
  have records := (((((records_empty false).dependsUpon "a" "b").dependsUpon "a" "c").dependsUpon
    "c" "b").dependsUpon "c" "d").dependsUpon "d" "c"
  have explored := (@explores_iff_cyclePath _ 0 records.wellFormed (by decide) [2, 3, 2, 0] true).mpr
    ⟨by decide, by decide⟩
  exact ⟨_, records.wellFormed, by decide, by decide, by decide, by decide, explored⟩

end PackageGraph

end PackageAudit
