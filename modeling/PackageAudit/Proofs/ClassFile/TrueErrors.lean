import PackageAudit.Proofs.ClassFile.PoolRecognition
/-!
Errors that are true of a file.

What an error says can be checked against the bytes of the file. A cursor always stands within the
file, also when it is bounded to a structure inside another, so offsets count from the start of the
file wherever they are taken. A reader is truthful if from such a cursor it comes to another one or
fails with a true error, which is kept by sequencing, by counted tables and by reading within a length.
-/

namespace PackageAudit.ClassFile

open Reader

/-! ### True errors -/

/-- Behind the first eight bytes of a file stand the count and the constants of its pool. -/
structure HoldsConstants (input : List UInt8) (count : UInt16) (constants : List Constant) :
    Prop where
  fits : ∀ constant ∈ constants, constant.Fits
  declares : Declares count.toNat constants
  stand : encode16 count ++ constants.flatMap Constant.encode <+: input.drop 8

/-- The tags that constants begin with. -/
def Constant.tags : List Nat := [1, 3, 4, 5, 6, 7, 8, 9, 10, 11, 12, 15, 16, 17, 18, 19, 20]

/-- The tags that element values begin with. -/
def Attribute.elementTags : List Nat := "BCDFIJSZsec@[".toList.map (·.toNat)

/-- What an error tells about a file is so. -/
inductive DecodeError.TrueOf (input : List UInt8) : DecodeError → Prop
  | badMagic {found : UInt32} (first : encode32 found <+: input) (other : found ≠ 0xCAFEBABE) :
    TrueOf input (.badMagic found)
  | truncated {offset needed available : Nat} (short : available < needed)
    (inside : offset + available ≤ input.length) : TrueOf input (.truncated offset needed available)
  | unknownTag {tag : UInt8} {offset : Nat} (there : input[offset]? = some tag)
    (unknown : tag.toNat ∉ Constant.tags) : TrueOf input (.unknownTag tag offset)
  | badElementValue {tag : UInt8} {offset : Nat} (there : input[offset]? = some tag)
    (unknown : tag.toNat ∉ Attribute.elementTags) : TrueOf input (.badElementValue tag offset)
  | nestingTooDeep {offset : Nat} (inside : offset ≤ input.length) :
    TrueOf input (.nestingTooDeep offset)
  | indexOutOfRange {index count : UInt16} {constants : List Constant}
    (holds : HoldsConstants input count constants)
    (unusable : max count.toNat 1 ≤ index.toNat ∨ index = 0 ∨ ∃ number constant,
      StandsAt constants number constant ∧ constant.isWide = true ∧ index.toNat = number + 1) :
    TrueOf input (.indexOutOfRange index (max count.toNat 1))
  | unexpectedConstant {index count : UInt16} {expected : Expected} {constants : List Constant}
    {target : Constant} (holds : HoldsConstants input count constants)
    (stands : StandsAt constants index.toNat target) (refused : ¬ expected.Admits target) :
    TrueOf input (.unexpectedConstant index expected)

/-! ### Cursors within a file -/

/-- The unread bytes stand in the file where the offset says. -/
def Cursor.LiesIn (cursor : Cursor) (input : List UInt8) : Prop :=
  ∃ before behind, input = before ++ (cursor.rest ++ behind) ∧ before.length = cursor.offset

namespace Cursor.LiesIn

variable {input used rest : List UInt8} {offset : Nat}

theorem whole (input : List UInt8) : Cursor.LiesIn ⟨0, input⟩ input :=
  ⟨[], [], (List.append_nil _).symm, rfl⟩

theorem offset_le {cursor : Cursor} (lies : cursor.LiesIn input) :
    cursor.offset + cursor.rest.length ≤ input.length := by
  obtain ⟨before, behind, rfl, place⟩ := lies
  simp only [List.length_append]
  omega

theorem advance (lies : Cursor.LiesIn ⟨offset, used ++ rest⟩ input) :
    Cursor.LiesIn ⟨offset + used.length, rest⟩ input := by
  obtain ⟨before, behind, rfl, place⟩ := lies
  have place : before.length = offset := place
  exact ⟨before ++ used, behind, by simp, by simp [place]⟩

theorem bounded (lies : Cursor.LiesIn ⟨offset, used ++ rest⟩ input) :
    Cursor.LiesIn ⟨offset, used⟩ input := by
  obtain ⟨before, behind, rfl, place⟩ := lies
  exact ⟨before, rest ++ behind, by simp, place⟩

theorem getElem?_offset {tag : UInt8} (lies : Cursor.LiesIn ⟨offset, tag :: rest⟩ input) :
    input[offset]? = some tag := by
  obtain ⟨before, behind, rfl, rfl⟩ := lies
  simp

/-- What a reader accepts it moves over, so it stays in the file. -/
theorem after_read {α : Type} {reader : Reader α} {language : Language α} {cursor after : Cursor}
    {value : α} (lies : cursor.LiesIn input) (recognizes : reader.Recognizes language)
    (read : reader cursor = .ok (value, after)) : after.LiesIn input := by
  obtain ⟨used, _, split, place⟩ := recognizes.advances read
  obtain ⟨offset, rest⟩ := cursor
  obtain ⟨last, left⟩ := after
  obtain rfl : rest = used ++ left := split
  obtain rfl : last = offset + used.length := place
  exact lies.advance

theorem truncated {cursor : Cursor} {needed : Nat} (lies : cursor.LiesIn input)
    (short : cursor.rest.length < needed) : (cursor.truncated needed).TrueOf input :=
  .truncated short lies.offset_le

end Cursor.LiesIn

/-! ### Readers that fail for a reason -/

/-- From a cursor within the file a reader comes to one within the file, or its error is true. -/
structure Reader.Truthful {α : Type} (input : List UInt8) (reader : Reader α) : Prop where
  stays : ∀ ⦃cursor value after⦄, cursor.LiesIn input → reader cursor = .ok (value, after) →
    after.LiesIn input
  blames : ∀ ⦃cursor error⦄, cursor.LiesIn input → reader cursor = .error error →
    error.TrueOf input

theorem Reader.bind_eq_error {α β : Type} {reader : Reader α} {next : α → Reader β}
    {cursor : Cursor} {error : DecodeError} (failed : (reader >>= next) cursor = .error error) :
    reader cursor = .error error ∨
      ∃ value middle, reader cursor = .ok (value, middle) ∧ next value middle = .error error := by
  cases begun : reader cursor with
  | error first =>
    simp only [bind, StateT.bind, begun, Except.bind] at failed
    cases failed
    exact .inl rfl
  | ok found =>
    simp only [bind, StateT.bind, begun, Except.bind] at failed
    exact .inr ⟨found.1, found.2, rfl, failed⟩

namespace Reader.Truthful

variable {α β : Type} {input : List UInt8} {reader : Reader α} {next : α → Reader β}

theorem lift {result : Except DecodeError α}
    (truly : ∀ error, result = .error error → error.TrueOf input) :
    Truthful input (liftM result : Reader α) := by
  cases result with
  | ok value => exact ⟨by rintro cursor _ _ lies ⟨⟩; exact lies, nofun⟩
  | error error => exact ⟨nofun, by rintro cursor _ lies ⟨⟩; exact truly error rfl⟩

theorem pure (value : α) : Truthful input (pure value : Reader α) := by
  have never : ∀ error, (Except.ok value : Except DecodeError α) = .error error →
      error.TrueOf input := nofun
  exact lift never

theorem throw {error : DecodeError} (truly : error.TrueOf input) :
    Truthful input (throw error : Reader α) := by
  have only : ∀ other, (Except.error error : Except DecodeError α) = .error other →
      other.TrueOf input := fun _ same => Except.error.inj same ▸ truly
  exact lift only

theorem bind (first : reader.Truthful input) (others : ∀ value, (next value).Truthful input) :
    (reader >>= next).Truthful input where
  stays cursor value after lies read := by
    obtain ⟨found, middle, begun, ended⟩ := exists_of_bind read
    exact (others found).stays (first.stays lies begun) ended
  blames cursor error lies failed := by
    rcases bind_eq_error failed with begun | ⟨found, middle, begun, ended⟩
    · exact first.blames lies begun
    · exact (others found).blames (first.stays lies begun) ended

/-- A reader that fails only where it finds fewer bytes than it needs. -/
private theorem of_runsOut {language : Language α} (recognizes : reader.Recognizes language)
    (runsOut : ∀ cursor error, reader cursor = .error error →
      ∃ needed, cursor.rest.length < needed ∧ error = cursor.truncated needed) :
    reader.Truthful input where
  stays _ _ _ lies read := lies.after_read recognizes read
  blames cursor error lies failed := by
    obtain ⟨needed, short, rfl⟩ := runsOut cursor error failed
    exact lies.truncated short

theorem u8 : Reader.u8.Truthful input := by
  refine of_runsOut Recognizes.u8 fun cursor error failed => ⟨1, ?_⟩
  obtain ⟨offset, rest⟩ := cursor
  match rest with
  | [] =>
    cases failed
    exact ⟨Nat.zero_lt_one, rfl⟩
  | _ :: _ => cases failed

theorem u16 : Reader.u16.Truthful input := by
  refine of_runsOut Recognizes.u16 fun cursor error failed => ⟨2, ?_⟩
  obtain ⟨offset, rest⟩ := cursor
  match rest with
  | [] | [_] =>
    cases failed
    exact ⟨by simp, rfl⟩
  | _ :: _ :: _ => cases failed

theorem u32 : Reader.u32.Truthful input := by
  refine of_runsOut Recognizes.u32 fun cursor error failed => ⟨4, ?_⟩
  obtain ⟨offset, rest⟩ := cursor
  match rest with
  | [] | [_] | [_, _] | [_, _, _] =>
    cases failed
    exact ⟨by simp, rfl⟩
  | _ :: _ :: _ :: _ :: _ => cases failed

theorem bytes (count : Nat) : (Reader.bytes count).Truthful input := by
  refine of_runsOut (Recognizes.bytes count) fun cursor error failed => ⟨count, ?_⟩
  rw [Reader.bytes, splitExactly?_eq_ite] at failed
  split_ifs at failed with enough
  cases failed
  exact ⟨Nat.lt_of_not_le enough, rfl⟩

theorem skip (count : Nat) : (Reader.skip count).Truthful input :=
  .bind (.bytes count) fun _ => .pure ()

/-- The structure is bounded to bytes that stand in the file where the cursor stood. -/
theorem within (count : Nat) (inner : reader.Truthful input) :
    (Reader.within count reader).Truthful input where
  stays cursor value after lies read := by
    obtain ⟨offset, rest⟩ := cursor
    unfold Reader.within at read
    split at read
    next taken behind split =>
      obtain ⟨rfl, rfl⟩ : rest = taken ++ behind ∧ taken.length = count :=
        (splitExactly?_eq_some_iff _ _ _ _).mp split
      split at read
      next =>
        cases read
        exact lies.advance
      next => cases read
    next => cases read
  blames cursor error lies failed := by
    obtain ⟨offset, rest⟩ := cursor
    unfold Reader.within at failed
    split at failed
    next taken behind split =>
      obtain ⟨rfl, rfl⟩ : rest = taken ++ behind ∧ taken.length = count :=
        (splitExactly?_eq_some_iff _ _ _ _).mp split
      split at failed
      next => cases failed
      next inside =>
        cases failed
        exact inner.blames lies.bounded inside
    next none =>
      cases failed
      rw [splitExactly?_eq_ite, ite_eq_right_iff] at none
      exact lies.truncated (Nat.lt_of_not_le fun enough => nomatch none enough)

/-- The tag stands in the file at the offset that was taken before it was read. -/
theorem tagged {next : Nat → UInt8 → Reader α}
    (behind : ∀ offset tag, input[offset]? = some tag → (next offset tag).Truthful input) :
    (Reader.offset >>= fun offset => Reader.u8 >>= next offset).Truthful input where
  stays cursor value after lies read := by
    obtain ⟨offset, rest⟩ := cursor
    cases rest with
    | nil => cases read
    | cons tag rest =>
      have next : Cursor.LiesIn ⟨offset, [tag] ++ rest⟩ input := lies
      exact (behind offset tag lies.getElem?_offset).stays next.advance read
  blames cursor error lies failed := by
    obtain ⟨offset, rest⟩ := cursor
    cases rest with
    | nil =>
      cases failed
      exact lies.truncated Nat.zero_lt_one
    | cons tag rest =>
      have next : Cursor.LiesIn ⟨offset, [tag] ++ rest⟩ input := lies
      exact (behind offset tag lies.getElem?_offset).blames next.advance failed

/-- By induction on the number of items. -/
private theorem timesBehind (item : reader.Truthful input) (seen : List α) (count : Nat) :
    (Reader.timesBehind reader seen count).Truthful input := by
  induction count generalizing seen with
  | zero => exact .pure _
  | succ count ih => exact item.bind fun value => ih (value :: seen)

theorem times (item : reader.Truthful input) (count : Nat) :
    (Reader.times count reader).Truthful input :=
  item.timesBehind [] count

theorem table (item : reader.Truthful input) : (Reader.table reader).Truthful input :=
  .bind .u16 fun count => item.times count.toNat

end Reader.Truthful

end PackageAudit.ClassFile
