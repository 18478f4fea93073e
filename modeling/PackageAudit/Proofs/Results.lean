/-!
Computations that may fail.

Whether a sequence of steps comes to a result is read off its steps, one lemma for each way to put steps
together.
-/

namespace PackageAudit

variable {α β ε : Type}

theorem bind_eq_ok_iff {first : Except ε α} {next : α → Except ε β} {result : β} :
    (first >>= next) = .ok result ↔ ∃ value, first = .ok value ∧ next value = .ok result := by
  cases first <;> simp [bind, Except.bind]

/-- A fold whose steps do not fail on account of what was folded before. -/
theorem exists_foldlM_eq_ok_iff (takes : α → Prop) {step : β → α → Except ε β} {items : List α}
    (each : ∀ item ∈ items, ∀ state, (∃ after, step state item = .ok after) ↔ takes item)
    (state : β) : (∃ after, items.foldlM step state = .ok after) ↔ ∀ item ∈ items, takes item := by
  induction items generalizing state with
  | nil => simp [pure, Except.pure]
  | cons item rest ih =>
    rw [List.forall_mem_cons] at each
    rw [List.forall_mem_cons, ← each.1 state]
    simp only [List.foldlM_cons, bind_eq_ok_iff]
    constructor
    · rintro ⟨after, middle, first, others⟩
      exact ⟨⟨middle, first⟩, (ih each.2 middle).mp ⟨after, others⟩⟩
    · rintro ⟨⟨middle, first⟩, taken⟩
      obtain ⟨after, others⟩ := (ih each.2 middle).mpr taken
      exact ⟨after, middle, first, others⟩

end PackageAudit
