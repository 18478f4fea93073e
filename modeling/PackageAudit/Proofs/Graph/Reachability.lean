import PackageAudit.Proofs.Graph.WellFormed
import Mathlib.Data.Finset.Filter
import Mathlib.Data.Finset.Range
import Mathlib.Logic.Relation
/-!
Reachability and cycles.

These relations say what the walks of a graph are to find. They are stated for any function that
lists the efferents of a package, which is all that a walk reads of a graph.
-/

namespace PackageAudit

open Relation (ReflTransGen TransGen)

section

variable (efferents : Nat → List Nat)

def DependsUpon (source target : Nat) : Prop := target ∈ efferents source

/-- Every package reaches itself. -/
def Reaches : Nat → Nat → Prop := ReflTransGen (DependsUpon efferents)

def OnCycle (node : Nat) : Prop := TransGen (DependsUpon efferents) node node

def LeadsToCycle (node : Nat) : Prop :=
  ∃ member, Reaches efferents node member ∧ OnCycle efferents member

end

variable {efferents : Nat → List Nat} {source target node : Nat}

theorem OnCycle.leadsToCycle (cyclic : OnCycle efferents node) : LeadsToCycle efferents node :=
  ⟨node, ReflTransGen.refl, cyclic⟩

theorem LeadsToCycle.of_reaches (leads : LeadsToCycle efferents target)
    (reaches : Reaches efferents source target) : LeadsToCycle efferents source := by
  obtain ⟨member, onward, cyclic⟩ := leads
  exact ⟨member, reaches.trans onward, cyclic⟩

theorem LeadsToCycle.of_dependsUpon (leads : LeadsToCycle efferents target)
    (depends : DependsUpon efferents source target) : LeadsToCycle efferents source :=
  leads.of_reaches (ReflTransGen.single depends)

/-- The first step towards a cycle, or around it, leads to a cycle too. -/
theorem LeadsToCycle.exists_efferent (leads : LeadsToCycle efferents source) :
    ∃ target ∈ efferents source, LeadsToCycle efferents target := by
  obtain ⟨member, reaches, cyclic⟩ := leads
  -- A package on a cycle comes back to itself, so there always is a first step.
  have around : TransGen (DependsUpon efferents) source member := by
    rcases ReflTransGen.cases_head reaches with rfl | ⟨next, depends, onward⟩
    · exact cyclic
    · exact TransGen.head' depends onward
  obtain ⟨next, depends, onward⟩ := TransGen.head'_iff.mp around
  exact ⟨next, depends, member, onward, cyclic⟩

theorem leadsToCycle_iff_exists_efferent :
    LeadsToCycle efferents source ↔ ∃ target ∈ efferents source, LeadsToCycle efferents target :=
  ⟨LeadsToCycle.exists_efferent, fun ⟨_, depends, leads⟩ => leads.of_dependsUpon depends⟩

namespace PackageGraph

open Classical in
/-- The packages that a package reaches and that lead to a cycle. -/
noncomputable def cyclicPart (graph : PackageGraph) (start : Nat) : Finset Nat :=
  (Finset.range graph.size).filter fun node =>
    Reaches graph.efferents start node ∧ LeadsToCycle graph.efferents node

theorem WellFormed.reaches_lt {graph : PackageGraph} (wellFormed : graph.WellFormed)
    (inRange : source < graph.size) (reaches : Reaches graph.efferents source target) :
    target < graph.size := by
  induction reaches with
  | refl => exact inRange
  | tail _ depends _ => exact wellFormed.efferents_lt _ _ depends

theorem WellFormed.mem_cyclicPart {graph : PackageGraph} (wellFormed : graph.WellFormed)
    (inRange : source < graph.size) : node ∈ graph.cyclicPart source ↔
      Reaches graph.efferents source node ∧ LeadsToCycle graph.efferents node := by
  simp only [cyclicPart, Finset.mem_filter, Finset.mem_range]
  exact ⟨And.right, fun both => ⟨wellFormed.reaches_lt inRange both.1, both⟩⟩

end PackageGraph

end PackageAudit
