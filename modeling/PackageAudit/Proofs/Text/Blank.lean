import Mathlib.Data.List.DropRight
import PackageAudit.Text.Blank
/-!
Trimmed text, and text in pieces.

Blanks are taken off a text at its beginning and then at its end. The second step leaves a beginning of what
the first one left, so the text still begins with a character that is not blank, and there is nothing more to
take off.

A text is cut wherever its separator stands and nowhere else. So there is one way to cut it, and putting the
separators back between the pieces gives the text back. The items of a list are what is left of its pieces
once they are trimmed, if anything is left.
-/

namespace PackageAudit.Text

theorem trimEnd_prefix (cs : List Char) : trimEnd cs <+: cs := List.rdropWhile_prefix isBlank cs

theorem trimEnd_trimEnd (cs : List Char) : trimEnd (trimEnd cs) = trimEnd cs :=
  List.rdropWhile_idempotent isBlank cs

theorem trimStart_trimEnd_trimStart (cs : List Char) :
    trimStart (trimEnd (trimStart cs)) = trimEnd (trimStart cs) := by
  have first := List.head?_dropWhile_not isBlank cs
  obtain ⟨behind, whole⟩ := trimEnd_prefix (trimStart cs)
  cases kept : trimEnd (trimStart cs) with
  | nil => rfl
  | cons c rest =>
    rw [kept] at whole
    have solid : isBlank c = false := by
      rwa [← trimStart, ← whole] at first
    rw [trimStart, List.dropWhile_cons_of_neg (by simp [solid])]

theorem trim_trim (text : String) : trim (trim text) = trim text := by
  simp only [trim, String.toList_ofList, trimStart_trimEnd_trimStart, trimEnd_trimEnd]

theorem pieces_eq_splitOn (separator : Char) (text : List Char) :
    pieces separator text = text.splitOn separator := by
  induction text with
  | nil => rfl
  | cons c rest ih =>
    obtain ⟨piece, others, cut⟩ := List.exists_cons_of_ne_nil (List.splitOn_ne_nil separator rest)
    rw [pieces, ih, List.splitOn_cons_eq_if_modifyHead, cut, List.modifyHead_cons]
    simp only [beq_iff_eq]

theorem notMem_of_mem_pieces (separator : Char) (text : List Char) :
    ∀ piece ∈ pieces separator text, separator ∉ piece := by
  induction text with
  | nil =>
    rw [pieces, List.forall_mem_singleton]
    exact List.not_mem_nil
  | cons c rest ih =>
    rw [pieces]
    split
    next none =>
      rw [pieces_eq_splitOn] at none
      exact absurd none (List.splitOn_ne_nil separator rest)
    next first others cut =>
      rw [cut] at ih
      split
      next => exact List.forall_mem_cons.mpr ⟨List.not_mem_nil, ih⟩
      next other =>
        rw [List.forall_mem_cons, List.mem_cons, not_or]
        obtain ⟨inFirst, inOthers⟩ := List.forall_mem_cons.mp ih
        exact ⟨⟨Ne.symm other, inFirst⟩, inOthers⟩

/-- A text is its pieces with the separator between them, and none of them holds the separator. -/
structure IsCut (separator : Char) (text : List Char) (cut : List (List Char)) : Prop where
  ne_nil : cut ≠ []
  joined : [separator].intercalate cut = text
  unseparated : ∀ piece ∈ cut, separator ∉ piece

theorem pieces_eq_iff (separator : Char) (text : List Char) (cut : List (List Char)) :
    pieces separator text = cut ↔ IsCut separator text cut := by
  constructor
  · rintro rfl
    refine ⟨?_, ?_, notMem_of_mem_pieces separator text⟩
    · rw [pieces_eq_splitOn]
      exact List.splitOn_ne_nil separator text
    · rw [pieces_eq_splitOn, List.intercalate_splitOn]
  · rintro ⟨ne_nil, rfl, unseparated⟩
    rw [pieces_eq_splitOn]
    exact List.splitOn_intercalate separator unseparated ne_nil

/-- A text is cut at its commas, and the items are the trimmed pieces that are not blank. -/
def ListsItems (text : String) (items : List String) : Prop :=
  ∃ cut, IsCut ',' text.toList cut ∧
    items = (cut.map fun piece => trim (String.ofList piece)).filter (· ≠ "")

theorem splitList_eq_iff (text : String) (items : List String) :
    splitList text = items ↔ ListsItems text items := by
  have blank (item : String) : (! item.isEmpty) = decide (item ≠ "") := by
    rw [Bool.eq_iff_iff]
    simp
  have trimmed (piece : List Char) :
      trim (String.ofList piece) = String.ofList (trimEnd (trimStart piece)) := by
    rw [trim, String.toList_ofList]
  -- There is one cut, so the items are those of the pieces.
  simp only [ListsItems, ← pieces_eq_iff, exists_eq_left', trimmed]
  rw [splitList, eq_comm]
  simp only [blank]

end PackageAudit.Text
