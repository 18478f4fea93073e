/-!
Sets and maps of text in their canonical form: ascending by code point, each member once.

The order of code points is the order of the UTF-8 encodings, so it is also the order in which
reports list packages. Lists of names are ordered by the first name in which they differ.
-/

namespace PackageAudit.Text

/-- The members of a list in ascending order, each once. -/
def distinctSorted (names : List String) : List String :=
  (names.mergeSort fun a b => decide (a ≤ b)).eraseReps

/-- What is left out repeats the name before it. -/
private theorem mem_eraseRepsBy_loop (name last : String) (names seen : List String) :
    name ∈ List.eraseRepsBy.loop (· == ·) last names seen ↔
      name ∈ seen ∨ name = last ∨ name ∈ names := by
  induction names generalizing last seen with
  | nil => simp [List.eraseRepsBy.loop, or_comm]
  | cons next names ih =>
    rw [List.eraseRepsBy.loop]
    split
    next same =>
      rw [ih, eq_of_beq same]
      simp
    next =>
      rw [ih, List.mem_cons, List.mem_cons, or_assoc, or_left_comm]

theorem mem_distinctSorted (name : String) (names : List String) :
    name ∈ distinctSorted names ↔ name ∈ names := by
  have sorted : name ∈ names ↔ name ∈ names.mergeSort fun a b => decide (a ≤ b) :=
    List.mem_mergeSort.symm
  rw [sorted, distinctSorted, List.eraseReps]
  cases names.mergeSort fun a b => decide (a ≤ b) with
  | nil => simp [List.eraseRepsBy]
  | cons first others =>
    rw [List.eraseRepsBy, mem_eraseRepsBy_loop]
    simp

/-- Whether a list of names is another or stands before it, by the first name that differs. -/
def precedes : List String → List String → Bool
  | [], _ => true
  | _ :: _, [] => false
  | a :: as, b :: bs => if a = b then precedes as bs else decide (a < b)

/-- Puts a binding into an ascending list of bindings, over an older one of the same name. -/
def insertBinding {α : Type} (name : String) (value : α) : List (String × α) → List (String × α)
  | [] => [(name, value)]
  | (other, old) :: rest =>
    if name = other then (name, value) :: rest
    else if name < other then (name, value) :: (other, old) :: rest
    else (other, old) :: insertBinding name value rest

end PackageAudit.Text
