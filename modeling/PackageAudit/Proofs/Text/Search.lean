import Mathlib.Data.List.Infix
import Mathlib.Data.List.TakeDrop
import Mathlib.Data.List.TakeWhile
import PackageAudit.Text.Search
/-!
What searching in text finds, in terms of the characters before and after.
-/

namespace PackageAudit.Text

theorem after?_eq_some_iff (beginning text rest : List Char) :
    after? beginning text = some rest ↔ text = beginning ++ rest := by
  induction beginning generalizing text with
  | nil => rw [after?, Option.some.injEq, List.nil_append]
  | cons b beginning ih =>
    cases text with
    | nil => simp [after?]
    | cons c text =>
      rw [after?, List.cons_append, List.cons.injEq]
      split
      next same => rw [ih, same, eq_self, true_and]
      next other => simp [Ne.symm other]

theorem occursIn_iff (part text : List Char) : occursIn part text = true ↔ part <:+: text := by
  induction text with
  | nil => simp [occursIn]
  | cons c text ih =>
    rw [occursIn, Bool.or_eq_true, List.isPrefixOf_iff_prefix, ih, List.infix_cons_iff]

theorem contains_iff (part text : String) :
    contains part text = true ↔ part.toList <:+: text.toList :=
  occursIn_iff part.toList text.toList

/-- The parts lie around the first mark. -/
theorem splitAtFirst?_eq_some_iff (isMark : Char → Bool) (text before after : List Char) :
    splitAtFirst? isMark text = some (before, after) ↔
      ∃ mark, isMark mark = true ∧ text = before ++ mark :: after ∧
        ∀ c ∈ before, isMark c = false := by
  rw [splitAtFirst?, List.span_eq_takeWhile_dropWhile]
  constructor
  · intro split
    cases rest : text.dropWhile (! isMark ·) with
    | nil => simp [rest] at split
    | cons mark behind =>
      simp only [rest, Option.some.injEq, Prod.mk.injEq] at split
      obtain ⟨rfl, rfl⟩ := split
      have whole := text.takeWhile_append_dropWhile (p := (! isMark ·))
      have first := List.head?_dropWhile_not (! isMark ·) text
      refine ⟨mark, by simpa [rest] using first, by rw [← rest, whole], ?_⟩
      intro c member
      simpa using List.mem_takeWhile_imp member
  · rintro ⟨mark, marked, rfl, others⟩
    have passed : ∀ c ∈ before, (! isMark c) = true := by simpa using others
    simp [List.takeWhile_append_of_pos passed, List.dropWhile_append_of_pos passed, marked]

/-- Seen from its end, a text is split at the first mark. -/
theorem splitAtLast?_eq (mark : Char) (text : List Char) :
    splitAtLast? mark text = (splitAtFirst? (· == mark) text.reverse).map fun parts =>
      (parts.2.reverse, parts.1.reverse) := by
  rw [splitAtLast?, splitAtFirst?, List.span_eq_takeWhile_dropWhile]
  simp only [bne]
  cases text.reverse.dropWhile (! · == mark) <;> rfl

/-- The parts lie around the last mark. -/
theorem splitAtLast?_eq_some_iff (mark : Char) (text before after : List Char) :
    splitAtLast? mark text = some (before, after) ↔ text = before ++ mark :: after ∧ mark ∉ after := by
  have found : splitAtLast? mark text = some (before, after) ↔
      splitAtFirst? (· == mark) text.reverse = some (after.reverse, before.reverse) := by
    simp only [splitAtLast?_eq, Option.map_eq_some_iff, Prod.ext_iff, List.reverse_eq_iff]
    constructor
    · rintro ⟨⟨_, _⟩, split, rfl, rfl⟩
      exact split
    · exact fun split => ⟨_, split, rfl, rfl⟩
  rw [found, splitAtFirst?_eq_some_iff]
  have passed : (∀ c ∈ after.reverse, (c == mark) = false) ↔ mark ∉ after := by
    simp only [List.mem_reverse, beq_eq_false_iff_ne]
    exact ⟨fun others member => others mark member rfl, fun absent c member same => absent (same ▸ member)⟩
  rw [passed]
  constructor
  · rintro ⟨other, same, split, absent⟩
    obtain rfl := eq_of_beq same
    exact ⟨by simpa using congrArg List.reverse split, absent⟩
  · rintro ⟨rfl, absent⟩
    exact ⟨mark, beq_self_eq_true mark, by simp, absent⟩

theorem splitAtLast?_eq_none_iff (mark : Char) (text : List Char) :
    splitAtLast? mark text = none ↔ mark ∉ text := by
  constructor
  · intro unsplit member
    obtain ⟨behind, before, split, absent⟩ := List.eq_append_cons_of_mem (List.mem_reverse.mpr member)
    have found : splitAtLast? mark text = some (before.reverse, behind.reverse) := by
      rw [splitAtLast?_eq_some_iff, List.mem_reverse]
      exact ⟨by simpa using congrArg List.reverse split, absent⟩
    rw [unsplit] at found
    cases found
  · intro absent
    rw [Option.eq_none_iff_forall_ne_some]
    rintro ⟨before, after⟩ found
    obtain ⟨rfl, -⟩ := (splitAtLast?_eq_some_iff _ _ _ _).mp found
    exact absent (by simp)

theorem beforeLast_of_split {mark : Char} {text : String} {before after : List Char}
    (split : text.toList = before ++ mark :: after) (last : mark ∉ after) :
    beforeLast mark text = String.ofList before := by
  rw [beforeLast, (splitAtLast?_eq_some_iff _ _ _ _).mpr ⟨split, last⟩]

theorem afterLast_of_split {mark : Char} {text : String} {before after : List Char}
    (split : text.toList = before ++ mark :: after) (last : mark ∉ after) :
    afterLast mark text = String.ofList after := by
  rw [afterLast, (splitAtLast?_eq_some_iff _ _ _ _).mpr ⟨split, last⟩]

theorem beforeLast_of_not_mem {mark : Char} {text : String} (absent : mark ∉ text.toList) :
    beforeLast mark text = "" := by
  rw [beforeLast, (splitAtLast?_eq_none_iff _ _).mpr absent]

theorem exists_split_at_last {mark : Char} {text : List Char} (member : mark ∈ text) :
    ∃ before after, text = before ++ mark :: after ∧ mark ∉ after := by
  cases found : splitAtLast? mark text with
  | none => exact absurd member ((splitAtLast?_eq_none_iff _ _).mp found)
  | some parts => exact ⟨parts.1, parts.2, (splitAtLast?_eq_some_iff _ _ _ _).mp found⟩

/-- All that stands before some mark stands before the last one. -/
theorem prefix_beforeLast {mark : Char} {text : String} {before after : List Char}
    (split : text.toList = before ++ mark :: after) : before <+: (beforeLast mark text).toList := by
  by_cases member : mark ∈ after
  · obtain ⟨between, behind, rfl, last⟩ := exists_split_at_last member
    have further : text.toList = (before ++ mark :: between) ++ mark :: behind := by simp [split]
    rw [beforeLast_of_split further last, String.toList_ofList]
    exact List.prefix_append _ _
  · rw [beforeLast_of_split split member, String.toList_ofList]

/-- Nothing stands before the last mark if it is nowhere but at the beginning. -/
theorem beforeLast_eq_empty_iff (mark : Char) (text : String) :
    beforeLast mark text = "" ↔ mark ∉ text.toList.tail := by
  constructor
  · intro empty member
    obtain ⟨before, after, split⟩ := List.append_of_mem member
    cases whole : text.toList with
    | nil => simp [whole] at member
    | cons c rest =>
      rw [whole, List.tail_cons] at split
      have whole : text.toList = (c :: before) ++ mark :: after := by rw [whole, split, List.cons_append]
      have longer := prefix_beforeLast whole
      simp [empty] at longer
  · intro absent
    by_cases member : mark ∈ text.toList
    · cases whole : text.toList with
      | nil => simp [whole] at member
      | cons c rest =>
        rw [whole, List.tail_cons] at absent
        rw [whole, List.mem_cons, or_iff_left absent] at member
        have whole : text.toList = [] ++ mark :: rest := by rw [whole, member, List.nil_append]
        rw [beforeLast_of_split whole absent, String.ofList_nil]
    · exact beforeLast_of_not_mem member

theorem startsWith_iff (beginning text : String) :
    startsWith beginning text = true ↔ ∃ rest, text = beginning ++ rest := by
  rw [startsWith, List.isPrefixOf_iff_prefix]
  constructor
  · rintro ⟨rest, same⟩
    exact ⟨String.ofList rest, by simp [← String.toList_inj, same]⟩
  · rintro ⟨rest, rfl⟩
    simp

theorem withoutLast?_eq_some_iff (mark : Char) (text beginning : String) :
    withoutLast? mark text = some beginning ↔ text = beginning.push mark := by
  rw [← String.toList_inj, String.toList_push, ← List.reverse_inj, List.reverse_append,
    List.reverse_singleton, List.singleton_append, withoutLast?]
  cases text.toList.reverse with
  | nil => simp
  | cons c rest =>
    by_cases same : c = mark
    · simp only [same, if_true, Option.some.injEq, List.cons.injEq, true_and]
      rw [← String.toList_inj, String.toList_ofList, List.reverse_eq_iff]
    · simp [same]

theorem withoutLast?_eq_none_iff (mark : Char) (text : String) :
    withoutLast? mark text = none ↔ ∀ beginning : String, text ≠ beginning.push mark := by
  rw [Option.eq_none_iff_forall_ne_some]
  exact forall_congr' fun (beginning : String) => not_congr (withoutLast?_eq_some_iff mark text beginning)

end PackageAudit.Text
