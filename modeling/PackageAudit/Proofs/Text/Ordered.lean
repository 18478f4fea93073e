import Mathlib.Data.List.Nodup
import Mathlib.Data.String.Basic
import Mathlib.Tactic.SplitIfs
import PackageAudit.Text.Ordered
/-!
Maps as ascending lists of bindings.

Since each name stands once and in its place, the list is determined by its members, and putting a
binding in is described by what it does to them.
-/

namespace PackageAudit.Text

variable {α : Type}

/-- The names of the bindings ascend, so that none of them is bound twice. -/
def Ascending (bindings : List (String × α)) : Prop := bindings.Pairwise (·.1 < ·.1)

/-- A name has its new value, and every other name what it had. -/
theorem mem_insertBinding (name : String) (value : α) {bindings : List (String × α)}
    (ascending : Ascending bindings) (binding : String × α) :
    binding ∈ insertBinding name value bindings ↔
      binding = (name, value) ∨ binding.1 ≠ name ∧ binding ∈ bindings := by
  induction bindings with
  | nil => simp [insertBinding]
  | cons first rest ih =>
    obtain ⟨other, old⟩ := first
    obtain ⟨least, ascendingRest⟩ := List.pairwise_cons.mp ascending
    rw [insertBinding]
    split_ifs with same lower
    · subst same
      have others : binding ∈ rest → binding.1 ≠ name := fun member => (least binding member).ne'
      have replaced : binding = (name, old) → ¬ binding.1 ≠ name := by
        rintro rfl
        exact not_not_intro rfl
      simp only [List.mem_cons]
      grind
    · -- All that is bound lies above the new name, so nothing is bound to it.
      have others : ∀ binding ∈ (other, old) :: rest, binding.1 ≠ name := by
        rw [List.forall_mem_cons]
        exact ⟨lower.ne', fun binding member => (lower.trans (least binding member)).ne'⟩
      specialize others binding
      simp only [List.mem_cons] at others ⊢
      grind
    · have older : binding = (other, old) → binding.1 ≠ name := by
        rintro rfl
        exact Ne.symm same
      simp only [List.mem_cons, ih ascendingRest]
      grind

theorem ascending_insertBinding (name : String) (value : α) {bindings : List (String × α)}
    (ascending : Ascending bindings) : Ascending (insertBinding name value bindings) := by
  induction bindings with
  | nil => exact List.pairwise_singleton _ _
  | cons first rest ih =>
    obtain ⟨other, old⟩ := first
    obtain ⟨least, ascendingRest⟩ := List.pairwise_cons.mp ascending
    rw [insertBinding]
    split_ifs with same lower
    · subst same
      exact List.pairwise_cons.mpr ⟨least, ascendingRest⟩
    · refine List.pairwise_cons.mpr ⟨?_, ascending⟩
      rw [List.forall_mem_cons]
      exact ⟨lower, fun binding member => lower.trans (least binding member)⟩
    · refine List.pairwise_cons.mpr ⟨?_, ih ascendingRest⟩
      intro binding member
      rcases (mem_insertBinding name value ascendingRest binding).mp member with rfl | ⟨-, old⟩
      · exact lt_of_le_of_ne (not_lt.mp lower) (Ne.symm same)
      · exact least binding old

/-- Two maps with the same bindings are the same. -/
theorem Ascending.eq {one other : List (String × α)} (ascending : Ascending one)
    (ascendingOther : Ascending other) (same : ∀ binding, binding ∈ one ↔ binding ∈ other) :
    one = other := by
  have nodup {bindings : List (String × α)} (ascending : Ascending bindings) : bindings.Nodup :=
    ascending.imp fun lower equal => lower.ne (congrArg Prod.fst equal)
  have perm : one.Perm other :=
    (List.perm_ext_iff_of_nodup (nodup ascending) (nodup ascendingOther)).mpr same
  exact perm.eq_of_pairwise (fun _ _ _ _ lower higher => absurd higher lower.asymm) ascending
    ascendingOther

end PackageAudit.Text
