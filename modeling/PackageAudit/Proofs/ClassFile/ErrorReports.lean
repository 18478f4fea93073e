import Mathlib
import PackageAudit.Proofs.ClassFile.FileRecognition
import PackageAudit.Proofs.ClassFile.TrueErrors
/-!
What errors say about a class file.

Each reader of a class file fails for what it finds at its cursor or for what the constant pool
answers. The constants stand behind the first eight bytes, so that the errors of lookups can be told
from the file as well, and with every reader truthful so is decoding.
-/

namespace PackageAudit.ClassFile

open Reader

/-! ### The constant pool -/

section Pool

variable {input : List UInt8} {count : UInt16} {constants : List Constant}

namespace Constant

private theorem pair_truthful (make : UInt16 → UInt16 → Constant) :
    (read.pair make).Truthful input :=
  .bind .u16 fun _ => .bind .u16 fun _ => .pure _

private theorem wide_truthful (make : UInt32 → UInt32 → Constant) :
    (read.wide make).Truthful input :=
  .within 8 (.bind .u32 fun _ => .bind .u32 fun _ => .pure _)

theorem read_truthful : read.Truthful input := by
  refine .tagged fun offset tag there => ?_
  split
  case h_1 => exact .bind .u16 fun length => .bind (.bytes _) fun _ => .pure _
  case h_2 | h_3 => exact .bind .u32 fun _ => .pure _
  case h_4 | h_5 => exact wide_truthful _
  case h_6 | h_7 | h_13 | h_16 | h_17 => exact .bind .u16 fun _ => .pure _
  case h_8 | h_9 | h_10 | h_11 | h_14 | h_15 => exact pair_truthful _
  case h_12 => exact .bind .u8 fun kind => .bind .u16 fun _ => .pure _
  case h_18 =>
    -- No tag is left that a constant could begin with.
    refine .throw (.unknownTag there ?_)
    simp only [tags, List.mem_cons, List.not_mem_nil, or_false, not_or]
    and_intros <;> assumption

end Constant

/-- By induction on the slots that are left, of which a wide constant fills two at once. -/
theorem ConstantPool.readSlots_truthful (filled : List (Option Constant)) (count : Nat) :
    (readSlots filled count).Truthful input := by
  induction count using Nat.strongRecOn generalizing filled with
  | ind count ih =>
    cases count with
    | zero => exact .pure _
    | succ count =>
      rw [readSlots]
      refine .bind Constant.read_truthful fun constant => ?_
      split
      next =>
        cases count with
        | zero => exact .pure _
        | succ count => exact ih count (by omega) _
      next => exact ih count (by omega) _

namespace ConstantPool

/-- A slot that names nothing is the second one of a wide constant. -/
private theorem exists_wide_of_slot (first : Nat) {i : Nat}
    (empty : (constants.flatMap Constant.slots)[i]? = some none) :
    ∃ number constant, (number, constant) ∈ numbered first constants ∧
      constant.isWide = true ∧ first + i = number + 1 := by
  induction constants generalizing first i with
  | nil => cases empty
  | cons constant others ih =>
    rw [List.flatMap_cons] at empty
    by_cases here : i < constant.slots.length
    · rw [List.getElem?_append_left here, Constant.slots] at empty
      split at empty
      next wide =>
        obtain rfl : i = 1 := by
          rcases i with _ | _ | i <;> simp_all
        exact ⟨first, constant, .head _, wide, rfl⟩
      next => rcases i with _ | i <;> simp at empty
    · rw [List.getElem?_append_right (Nat.le_of_not_lt here), Constant.length_slots] at empty
      rw [Constant.length_slots] at here
      obtain ⟨number, other, member, wide, place⟩ := ih (first + constant.slotCount) empty
      exact ⟨number, other, .tail _ member, wide, by omega⟩

/-- What is wrong with a reference is told of a constant that is there or of a slot that is not. -/
theorem Unmet.trueOf {index : UInt16} {expected : Expected} {error : DecodeError}
    (unmet : Unmet constants (max count.toNat 1) index expected error)
    (holds : HoldsConstants input count constants) : error.TrueOf input := by
  cases unmet with
  | another stands refused => exact .unexpectedConstant holds stands refused
  | nothing free =>
    refine .indexOutOfRange holds ?_
    by_cases past : max count.toNat 1 ≤ index.toNat
    · exact .inl past
    by_cases zero : index = 0
    · exact .inr (.inl zero)
    right; right
    obtain ⟨i, place⟩ : ∃ i, index.toNat = i + 1 :=
      Nat.exists_eq_succ_of_ne_zero fun same => zero (UInt16.toNat.inj same)
    have within := holds.declares.within
    -- The slot is there, as no more are declared than the constants take.
    have there : i < (constants.flatMap Constant.slots).length := by
      rw [length_flatMap_slots]
      omega
    have empty : (constants.flatMap Constant.slots)[i]? = some none := by
      cases slot : (constants.flatMap Constant.slots)[i] with
      | none => rw [List.getElem?_eq_getElem there, slot]
      | some target =>
        refine absurd ?_ (free target)
        rw [standsAt_iff_slots, place, List.getElem?_cons_succ, List.getElem?_eq_getElem there,
          slot]
    obtain ⟨number, constant, member, wide, next⟩ := exists_wide_of_slot 1 empty
    exact ⟨number, constant, member, wide, by omega⟩

/-- A pool that holds the constants of a file in the slots that it declares. -/
def ReadFrom (pool : ConstantPool) (input : List UInt8) : Prop :=
  ∃ (count : UInt16) (constants : List Constant),
    HoldsConstants input count constants ∧ pool = declaring count.toNat constants

namespace ReadFrom

variable {pool : ConstantPool} (source : pool.ReadFrom input) {index : UInt16} {error : DecodeError}
include source

theorem get_true (failed : pool.get index = .error error) : error.TrueOf input := by
  obtain ⟨count, constants, holds, rfl⟩ := source
  obtain ⟨nothing, rfl⟩ := (get_eq_error_iff _ _ _).mp failed
  rw [size_declaring holds.declares]
  have free : ∀ target, ¬ StandsAt constants index.toNat target := fun target stands =>
    nothing target ((get_declaring holds.declares index target).mpr stands)
  have unmet : Unmet constants (max count.toNat 1) index .utf8 _ := .nothing free
  exact unmet.trueOf holds

theorem another_true {expected : Expected} {target : Constant} (found : pool.get index = .ok target)
    (refused : ¬ expected.Admits target) :
    (DecodeError.unexpectedConstant index expected).TrueOf input := by
  obtain ⟨count, constants, holds, rfl⟩ := source
  exact .unexpectedConstant holds ((get_declaring holds.declares index target).mp found) refused

/-- A lookup fails with its first part or for the constant that was found. -/
private theorem lookup_true {α : Type} {select : Constant → Except DecodeError α}
    (failed : (pool.get index >>= select) = .error error)
    (chosen : ∀ target, pool.get index = .ok target → select target = .error error →
      error.TrueOf input) : error.TrueOf input := by
  cases found : pool.get index with
  | error missing =>
    rw [found] at failed
    cases failed
    exact source.get_true found
  | ok target =>
    rw [found] at failed
    exact chosen target found failed

theorem text_true (failed : pool.text index = .error error) : error.TrueOf input := by
  refine source.lookup_true failed fun target found failed => ?_
  split at failed
  next => cases failed
  next other =>
    cases failed
    refine source.another_true found fun admits => ?_
    cases admits
    exact other _ rfl

theorem className_true (failed : pool.className index = .error error) : error.TrueOf input := by
  refine source.lookup_true failed fun target found failed => ?_
  split at failed
  next => exact source.text_true failed
  next other =>
    cases failed
    refine source.another_true found fun admits => ?_
    cases admits
    exact other _ rfl

theorem nameAndTypeDescriptor_true (failed : pool.nameAndTypeDescriptor index = .error error) :
    error.TrueOf input := by
  refine source.lookup_true failed fun target found failed => ?_
  split at failed
  next => exact source.text_true failed
  next other =>
    cases failed
    refine source.another_true found fun admits => ?_
    cases admits
    exact other _ _ rfl

theorem classNameIfAny_true (failed : Attribute.classNameIfAny pool index = .error error) :
    error.TrueOf input := by
  unfold Attribute.classNameIfAny at failed
  split at failed
  next => cases failed
  next =>
    cases named : pool.className index with
    | error missing =>
      rw [named] at failed
      cases failed
      exact source.className_true named
    | ok name =>
      rw [named] at failed
      cases failed

end ReadFrom

end ConstantPool

end Pool

/-! ### Attributes -/

section Readers

variable {input : List UInt8} {pool : ConstantPool}

namespace Attribute

theorem tooDeep_truthful {α : Type} : (tooDeep : Reader α).Truthful input where
  stays := nofun
  blames cursor error lies failed := by
    cases failed
    exact .nestingTooDeep (Nat.le_trans (Nat.le_add_right _ _) lies.offset_le)

/-- Each branch of an element value takes some tags away, and none is left at the end. -/
private theorem not_mem_elementTags {tag : UInt8} (notConstant : ¬ isConstantTag tag = true)
    (notEnum : ¬ tag.toNat = 'e'.toNat) (notClass : ¬ tag.toNat = 'c'.toNat)
    (notAt : ¬ tag.toNat = '@'.toNat) (notArray : ¬ tag.toNat = '['.toNat) :
    tag.toNat ∉ elementTags := by
  have parts : elementTags =
      "BCDFIJSZs".toList.map (·.toNat) ++ ['e', 'c', '@', '['].map (·.toNat) := by
    decide
  rw [isConstantTag, List.any_eq_true] at notConstant
  intro member
  rw [parts, List.mem_append] at member
  rcases member with constant | other
  · obtain ⟨c, held, same⟩ := List.mem_map.mp constant
    exact notConstant ⟨c, held, beq_iff_eq.mpr same⟩
  · simp only [List.map_cons, List.map_nil, List.mem_cons, List.not_mem_nil, or_false] at other
    omega

variable (source : pool.ReadFrom input)
include source

theorem className_truthful : (className pool).Truthful input :=
  .bind .u16 fun _ => .bind (.lift fun _ => source.className_true) fun _ => .pure _

theorem typeText_truthful : (typeText pool).Truthful input :=
  .bind .u16 fun _ => .bind (.lift fun _ => source.text_true) fun _ => .pure _

theorem annotationBody_truthful {value : Reader (List Mention)} (inner : value.Truthful input) :
    (annotationBody pool value).Truthful input :=
  .bind (typeText_truthful source) fun _ =>
    .bind (.table (.bind .u16 fun _ => inner)) fun _ => .pure _

/-- By induction on the levels that are left. -/
theorem elementValue_truthful (levels : Nat) : (elementValue pool levels).Truthful input := by
  induction levels with
  | zero => exact tooDeep_truthful
  | succ levels ih =>
    refine .tagged fun offset tag there => ?_
    split
    · exact .bind .u16 fun _ => .pure _
    split
    · exact .bind .u16 fun _ => .bind .u16 fun _ => .bind (.lift fun _ => source.text_true) fun _ =>
        .pure _
    split
    · exact .bind (typeText_truthful source) fun _ => .pure _
    split
    · exact annotationBody_truthful source ih
    split
    · exact .bind (.table ih) fun _ => .pure _
    · have unknown : tag.toNat ∉ elementTags := by apply not_mem_elementTags <;> assumption
      exact .throw (.badElementValue there unknown)

theorem annotations_truthful : (annotations pool).Truthful input :=
  .bind (.table (annotationBody_truthful source (elementValue_truthful source maxLevels))) fun _ =>
    .pure _

theorem parameterAnnotations_truthful : (parameterAnnotations pool).Truthful input :=
  .bind .u8 fun _ => .bind (.times (annotations_truthful source) _) fun _ => .pure _

theorem innerClass_truthful : (innerClass pool).Truthful input :=
  .bind .u16 fun _ => .bind .u16 fun _ => .bind .u16 fun _ => .bind .u16 fun _ =>
    .bind (.lift fun _ => source.classNameIfAny_true) fun _ =>
      .bind (.lift fun _ => source.classNameIfAny_true) fun _ => .pure _

theorem enclosingMethod_truthful : (enclosingMethod pool).Truthful input := by
  refine .bind .u16 fun owner => .bind .u16 fun method =>
    .bind (.lift fun _ => source.className_true) fun name => ?_
  split
  · exact .pure _
  · exact .bind (.lift fun _ => source.nameAndTypeDescriptor_true) fun _ => .pure _

theorem localVariable_truthful : (localVariable pool).Truthful input :=
  .bind .u16 fun _ => .bind .u16 fun _ => .bind .u16 fun _ => .bind .u16 fun _ =>
    .bind .u16 fun _ => .bind (.lift fun _ => source.text_true) fun _ => .pure _

theorem handler_truthful : (handler pool).Truthful input :=
  .bind .u16 fun _ => .bind .u16 fun _ => .bind .u16 fun _ => .bind .u16 fun _ =>
    .lift fun _ => source.classNameIfAny_true

theorem code_truthful {attributes : Reader Facts} (inner : attributes.Truthful input) :
    (code pool attributes).Truthful input :=
  .bind .u16 fun _ => .bind .u16 fun _ => .bind .u32 fun _ => .bind (.skip _) fun _ =>
    .bind (.table (handler_truthful source)) fun _ => .bind inner fun _ => .pure _

theorem payload_truthful {body : Reader Facts} (inner : body.Truthful input) (name : String) :
    (payload pool body name).Truthful input := by
  unfold payload
  split
  · exact .bind .u16 fun _ => .bind (.lift fun _ => source.text_true) fun _ => .pure _
  · exact .bind (typeText_truthful source) fun _ => .pure _
  · exact .bind (.table (className_truthful source)) fun _ => .pure _
  · exact .bind (.bind (.table (innerClass_truthful source)) fun _ => .pure _) fun _ => .pure _
  · exact .bind (enclosingMethod_truthful source) fun _ => .pure _
  · exact .bind (annotations_truthful source) fun _ => .pure _
  · exact .bind (annotations_truthful source) fun _ => .pure _
  · exact .bind (parameterAnnotations_truthful source) fun _ => .pure _
  · exact .bind (parameterAnnotations_truthful source) fun _ => .pure _
  · exact .bind (elementValue_truthful source maxLevels) fun _ => .pure _
  · exact inner
  · exact .bind (.table (localVariable_truthful source)) fun _ => .pure _
  · exact .bind (.table (localVariable_truthful source)) fun _ => .pure _
  · exact .pure _

theorem table_truthful {body : Reader Facts} (inner : body.Truthful input) :
    (table pool body).Truthful input :=
  .bind (.table (.bind .u16 fun _ => .bind .u32 fun _ => .bind (.lift fun _ => source.text_true)
    fun name => .within _ (payload_truthful source inner name))) fun _ => .pure _

/-- By induction on the method bodies that may still enclose one another. -/
theorem bodyWithin_truthful (levels : Nat) : (bodyWithin pool levels).Truthful input := by
  induction levels with
  | zero => exact tooDeep_truthful
  | succ levels ih => exact code_truthful source (table_truthful source ih)

theorem tableWithin_truthful (levels : Nat) : (tableWithin pool levels).Truthful input :=
  table_truthful source (bodyWithin_truthful source levels)

end Attribute

/-! ### The class file -/

theorem member_truthful (source : pool.ReadFrom input) : (member pool).Truthful input :=
  .bind .u16 fun _ => .bind .u16 fun _ => .bind (Attribute.typeText_truthful source) fun _ =>
    .bind (Attribute.tableWithin_truthful source maxLevels) fun _ => .pure _

/-- What the constants mention is looked up at the end, where it is known to be found. -/
theorem readBody_truthful (source : pool.ReadFrom input) (checked : pool.checkReferences = .ok ()) :
    (readBody pool).Truthful input := by
  obtain ⟨found, mentioned, _⟩ := ConstantPool.mentions_of_checked checked
  exact .bind .u16 fun _ => .bind .u16 fun _ =>
    .bind (.lift fun _ => source.className_true) fun _ => .bind .u16 fun _ =>
    .bind (.lift fun _ => source.classNameIfAny_true) fun _ =>
    .bind (.table (Attribute.className_truthful source)) fun _ =>
    .bind (.table (member_truthful source)) fun _ =>
    .bind (.table (member_truthful source)) fun _ =>
    .bind (Attribute.tableWithin_truthful source maxLevels) fun _ =>
    .bind (.lift (by rw [mentioned]; nofun)) fun _ => .pure _

theorem readMagic_blames {error : DecodeError} (failed : readMagic ⟨0, input⟩ = .error error) :
    error.TrueOf input := by
  rcases bind_eq_error failed with short | ⟨magic, middle, read, failed⟩
  · exact Truthful.u32.blames (.whole input) short
  · split at failed
    next other =>
      cases failed
      obtain ⟨_, rfl, split⟩ := Recognizes.u32.only read
      exact .badMagic ⟨middle.rest, split.symm⟩ other
    next => cases failed

variable {cursor after : Cursor} (place : cursor.rest = input.drop 8)
include place

/-- References are checked once the constants are there, so that an error can name one of them. -/
theorem ConstantPool.read_blames {error : DecodeError} (lies : cursor.LiesIn input)
    (failed : read cursor = .error error) : error.TrueOf input := by
  rcases bind_eq_error failed with short | ⟨count, first, countRead, failed⟩
  · exact Truthful.u16.blames lies short
  have stays := Truthful.u16.stays lies countRead
  rcases bind_eq_error failed with cut | ⟨slots, last, slotsRead, failed⟩
  · exact (readSlots_truthful _ _).blames stays cut
  obtain ⟨_, rfl, countSplit⟩ := Recognizes.u16.only countRead
  obtain ⟨_, ⟨constants, fits, fills, rfl, rfl⟩, slotsSplit⟩ :=
    (recognizes_readSlots [none] _).only slotsRead
  have holds : HoldsConstants input count constants := by
    refine ⟨fits, fills.declares, last.rest, ?_⟩
    rw [← place, countSplit, slotsSplit, List.append_assoc]
  -- Behind the constants only a reference among them can be at fault.
  rcases bind_eq_error failed with unmet | ⟨_, _, _, answered⟩
  · have refused : (declaring count.toNat constants).checkReferences = .error error := by
      change (liftM (declaring count.toNat constants).checkReferences : Reader Unit) last = _
        at unmet
      cases checked : (declaring count.toNat constants).checkReferences with
      | ok => rw [checked] at unmet; cases unmet
      | error reason => rw [checked] at unmet; cases unmet; rfl
    obtain ⟨_, _, _, _, _, wrong, _⟩ := firstUnmet_of_checkReferences fills.declares refused
    exact wrong.trueOf holds
  · cases answered

theorem ConstantPool.readFrom_of_read {pool : ConstantPool}
    (accepted : read cursor = .ok (pool, after)) :
    pool.ReadFrom input ∧ pool.checkReferences = .ok () := by
  obtain ⟨_, ⟨count, constants, fits, declares, met, rfl, rfl⟩, split⟩ :=
    recognizes_read.only accepted
  have stand : encode16 count ++ constants.flatMap Constant.encode <+: input.drop 8 :=
    ⟨after.rest, by rw [← place, split]⟩
  exact ⟨⟨count, constants, ⟨fits, declares, stand⟩, rfl⟩,
    (checkReferences_declaring_ok declares).mpr met⟩

end Readers

/-- What is reported of a file that cannot be decoded is so: missing bytes are missing where they
are said to be, unknown tags stand at their offsets, and references that cannot be followed point at no
constant of the pool or at one of another kind. -/
theorem decode_error_trueOf {input : List UInt8} {error : DecodeError}
    (failed : decode input = .error error) : error.TrueOf input := by
  have failed : readClass ⟨0, input⟩ = .error error := by
    unfold decode at failed
    cases read : readClass ⟨0, input⟩ with
    | ok result => rw [read] at failed; cases failed
    | error reason => rw [read] at failed; cases failed; rfl
  rcases bind_eq_error failed with other | ⟨_, first, magicRead, failed⟩
  · exact readMagic_blames other
  have firstLies := (Cursor.LiesIn.whole input).after_read readMagic_recognizes magicRead
  rcases bind_eq_error failed with short | ⟨minor, second, minorRead, failed⟩
  · exact Truthful.u16.blames firstLies short
  have secondLies := Truthful.u16.stays firstLies minorRead
  rcases bind_eq_error failed with short | ⟨major, third, majorRead, failed⟩
  · exact Truthful.u16.blames secondLies short
  have thirdLies := Truthful.u16.stays secondLies majorRead
  -- The pool begins eight bytes into the file.
  have place : third.rest = input.drop 8 := by
    obtain ⟨_, rfl, magicSplit⟩ := readMagic_recognizes.only magicRead
    obtain ⟨_, rfl, minorSplit⟩ := Recognizes.u16.only minorRead
    obtain ⟨_, rfl, majorSplit⟩ := Recognizes.u16.only majorRead
    have magicSplit : input = _ := magicSplit
    rw [magicSplit, minorSplit, majorSplit]
    rfl
  rcases bind_eq_error failed with wrong | ⟨pool, last, poolRead, failed⟩
  · exact ConstantPool.read_blames place thirdLies wrong
  obtain ⟨source, checked⟩ := ConstantPool.readFrom_of_read place poolRead
  have lastLies := thirdLies.after_read ConstantPool.recognizes_read poolRead
  exact (readBody_truthful source checked).blames lastLies failed

/-- A superclass at the second slot of a long, and a method body that is a byte too short for the
size of its frame, with more bytes behind it in the file. -/
theorem decode_error_trueOf_second_slot :
    let secondSlot : List UInt8 :=
      [0xCA, 0xFE, 0xBA, 0xBE, 0, 0, 0, 52, 0, 5, 1, 0, 3, 97, 47, 66, 7, 0, 1, 5, 0, 0, 0, 0, 0, 0,
        0, 9, 0, 0, 0, 2, 0, 4]
    let shortBody : List UInt8 :=
      [0xCA, 0xFE, 0xBA, 0xBE, 0, 0, 0, 52, 0, 5, 1, 0, 3, 97, 47, 66, 7, 0, 1, 1, 0, 3, 40, 41, 86,
        1, 0, 4, 67, 111, 100, 101, 0, 0, 0, 2, 0, 0, 0, 0, 0, 0, 0, 1, 0, 0, 0, 1, 0, 3, 0, 1, 0, 4,
        0, 0, 0, 3, 0, 1, 0, 0, 0]
    (decode secondSlot = .error (.indexOutOfRange 4 5) ∧
      (DecodeError.indexOutOfRange 4 5).TrueOf secondSlot) ∧
    decode shortBody = .error (.truncated 60 2 1) ∧
      (DecodeError.truncated 60 2 1).TrueOf shortBody := by
  intro secondSlot shortBody
  have unusable : decode secondSlot = .error (.indexOutOfRange 4 5) := by decide +kernel
  have short : decode shortBody = .error (.truncated 60 2 1) := by decide +kernel
  exact ⟨⟨unusable, decode_error_trueOf unusable⟩, short, decode_error_trueOf short⟩

end PackageAudit.ClassFile
