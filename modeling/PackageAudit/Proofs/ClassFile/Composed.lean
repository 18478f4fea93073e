import PackageAudit.ClassFile.Decode
/-!
The readers of class files as compositions.

Every reader of a class file, down to the tables of its innermost structures, is put together from a
few primitive ones by sequencing and by reading within a length. What the primitive readers do and
sequencing preserves is therefore true of all of them, by one induction over the composition.
-/

namespace PackageAudit.ClassFile

/-- Put together from the primitive readers. Results computed without reading enter by `lift`, so
that errors other than those of the primitive readers do too. -/
inductive Reader.Composed : {α : Type} → Reader α → Prop where
  | pure {α : Type} (value : α) : Composed (Pure.pure value)
  | lift {α : Type} (result : Except DecodeError α) : Composed (liftM result)
  | offset : Composed Reader.offset
  | bytes (count : Nat) : Composed (Reader.bytes count)
  | u8 : Composed Reader.u8
  | u16 : Composed Reader.u16
  | u32 : Composed Reader.u32
  | bind {α β : Type} {reader : Reader α} {next : α → Reader β} (first : Composed reader)
      (others : ∀ value, Composed (next value)) : Composed (reader >>= next)
  | within {α : Type} {body : Reader α} (count : Nat) (inner : Composed body) :
      Composed (Reader.within count body)

namespace Reader.Composed

variable {α β : Type} {item : Reader α}

theorem throw (error : DecodeError) : Composed (throw error : Reader α) := .lift (.error error)

theorem skip (count : Nat) : Composed (Reader.skip count) :=
  .bind (.bytes count) fun _ => .pure ()

theorem timesBehind (inner : Composed item) (seen : List α) (count : Nat) :
    Composed (Reader.timesBehind item seen count) := by
  induction count generalizing seen with
  | zero => exact .pure _
  | succ count ih => exact .bind inner fun value => ih (value :: seen)

theorem times (inner : Composed item) (count : Nat) : Composed (Reader.times count item) :=
  inner.timesBehind [] count

theorem table (inner : Composed item) : Composed (Reader.table item) :=
  .bind .u16 fun count => inner.times count.toNat

end Reader.Composed

open Reader

/-! ### The constant pool -/

namespace Constant

private theorem pair_composed (make : UInt16 → UInt16 → Constant) : Composed (read.pair make) :=
  .bind .u16 fun _ => .bind .u16 fun _ => .pure _

private theorem wide_composed (make : UInt32 → UInt32 → Constant) : Composed (read.wide make) :=
  .within 8 (.bind .u32 fun _ => .bind .u32 fun _ => .pure _)

theorem read_composed : Composed read := by
  refine .bind .offset fun offset => .bind .u8 fun tag => ?_
  split
  case h_1 => exact .bind .u16 fun length => .bind (.bytes _) fun _ => .pure _
  case h_2 | h_3 => exact .bind .u32 fun _ => .pure _
  case h_4 | h_5 => exact wide_composed _
  case h_6 | h_7 | h_13 | h_16 | h_17 => exact .bind .u16 fun _ => .pure _
  case h_8 | h_9 | h_10 | h_11 | h_14 | h_15 => exact pair_composed _
  case h_12 => exact .bind .u8 fun kind => .bind .u16 fun _ => .pure _
  case h_18 => exact .throw _

end Constant

namespace ConstantPool

theorem readSlots_composed (filled : List (Option Constant)) (count : Nat) :
    Composed (readSlots filled count) := by
  -- A wide constant takes two slots in one step, so the hypothesis is needed two below.
  induction count using Nat.strongRecOn generalizing filled with
  | ind count ih =>
    match count with
    | 0 => exact .pure _
    | count + 1 =>
      rw [readSlots]
      refine .bind Constant.read_composed fun constant => ?_
      split
      next =>
        match count with
        | 0 => exact .pure _
        | count + 1 => exact ih count (by omega) _
      next => exact ih count (by omega) _

theorem read_composed : Composed read :=
  .bind .u16 fun _ => .bind (readSlots_composed _ _) fun _ => .bind (.lift _) fun _ => .pure _

end ConstantPool

/-! ### Attributes -/

namespace Attribute

variable (pool : ConstantPool)

theorem tooDeep_composed {α : Type} : Composed (tooDeep : Reader α) :=
  .bind .offset fun _ => .throw _

theorem className_composed : Composed (className pool) :=
  .bind .u16 fun _ => .bind (.lift _) fun _ => .pure _

theorem typeText_composed : Composed (typeText pool) :=
  .bind .u16 fun _ => .bind (.lift _) fun _ => .pure _

theorem element_composed {value : Reader (List Mention)} (inner : Composed value) :
    Composed (element value) :=
  .bind .u16 fun _ => inner

theorem annotationBody_composed {value : Reader (List Mention)} (inner : Composed value) :
    Composed (annotationBody pool value) :=
  .bind (typeText_composed pool) fun _ => .bind (.table (element_composed inner)) fun _ => .pure _

/-- By induction on the levels that are left. -/
theorem elementValue_composed (levels : Nat) : Composed (elementValue pool levels) := by
  induction levels with
  | zero => exact tooDeep_composed
  | succ levels ih =>
    refine .bind .offset fun offset => .bind .u8 fun tag => ?_
    split
    · exact .bind .u16 fun _ => .pure _
    split
    · exact .bind .u16 fun _ => .bind .u16 fun _ => .bind (.lift _) fun _ => .pure _
    split
    · exact .bind (typeText_composed pool) fun _ => .pure _
    split
    · exact annotationBody_composed pool ih
    split
    · exact .bind (.table ih) fun _ => .pure _
    · exact .throw _

theorem annotations_composed : Composed (annotations pool) :=
  .bind (.table (annotationBody_composed pool (elementValue_composed pool maxLevels))) fun _ =>
    .pure _

theorem parameterAnnotations_composed : Composed (parameterAnnotations pool) :=
  .bind .u8 fun _ => .bind (.times (annotations_composed pool) _) fun _ => .pure _

theorem innerClass_composed : Composed (innerClass pool) :=
  .bind .u16 fun _ => .bind .u16 fun _ => .bind .u16 fun _ => .bind .u16 fun _ =>
    .bind (.lift _) fun _ => .bind (.lift _) fun _ => .pure _

theorem innerClasses_composed : Composed (innerClasses pool) :=
  .bind (.table (innerClass_composed pool)) fun _ => .pure _

theorem enclosingMethod_composed : Composed (enclosingMethod pool) := by
  refine .bind .u16 fun owner => .bind .u16 fun method => .bind (.lift _) fun name => ?_
  split
  · exact .pure _
  · exact .bind (.lift _) fun _ => .pure _

theorem localVariable_composed : Composed (localVariable pool) :=
  .bind .u16 fun _ => .bind .u16 fun _ => .bind .u16 fun _ => .bind .u16 fun _ =>
    .bind .u16 fun _ => .bind (.lift _) fun _ => .pure _

theorem handler_composed : Composed (handler pool) :=
  .bind .u16 fun _ => .bind .u16 fun _ => .bind .u16 fun _ => .bind .u16 fun _ => .lift _

theorem code_composed {attributes : Reader Facts} (inner : Composed attributes) :
    Composed (code pool attributes) :=
  .bind .u16 fun _ => .bind .u16 fun _ => .bind .u32 fun _ => .bind (.skip _) fun _ =>
    .bind (.table (handler_composed pool)) fun _ => .bind inner fun _ => .pure _

theorem payload_composed {body : Reader Facts} (inner : Composed body) (name : String) :
    Composed (payload pool body name) := by
  unfold payload
  split
  · exact .bind .u16 fun _ => .bind (.lift _) fun _ => .pure _
  · exact .bind (typeText_composed pool) fun _ => .pure _
  · exact .bind (.table (className_composed pool)) fun _ => .pure _
  · exact .bind (innerClasses_composed pool) fun _ => .pure _
  · exact .bind (enclosingMethod_composed pool) fun _ => .pure _
  · exact .bind (annotations_composed pool) fun _ => .pure _
  · exact .bind (annotations_composed pool) fun _ => .pure _
  · exact .bind (parameterAnnotations_composed pool) fun _ => .pure _
  · exact .bind (parameterAnnotations_composed pool) fun _ => .pure _
  · exact .bind (elementValue_composed pool maxLevels) fun _ => .pure _
  · exact inner
  · exact .bind (.table (localVariable_composed pool)) fun _ => .pure _
  · exact .bind (.table (localVariable_composed pool)) fun _ => .pure _
  · exact .pure _

theorem entry_composed {body : Reader Facts} (inner : Composed body) :
    Composed (entry pool body) :=
  .bind .u16 fun _ => .bind .u32 fun _ => .bind (.lift _) fun name =>
    .within _ (payload_composed pool inner name)

theorem table_composed {body : Reader Facts} (inner : Composed body) :
    Composed (table pool body) :=
  .bind (.table (entry_composed pool inner)) fun _ => .pure _

/-- By induction on the method bodies that may still enclose one another. -/
theorem bodyWithin_composed (levels : Nat) : Composed (bodyWithin pool levels) := by
  induction levels with
  | zero => exact tooDeep_composed
  | succ levels ih => exact code_composed pool (table_composed pool ih)

theorem tableWithin_composed (levels : Nat) : Composed (tableWithin pool levels) :=
  table_composed pool (bodyWithin_composed pool levels)

end Attribute

/-! ### The class file -/

theorem member_composed (pool : ConstantPool) : Composed (member pool) :=
  .bind .u16 fun _ => .bind .u16 fun _ => .bind (Attribute.typeText_composed pool) fun _ =>
    .bind (Attribute.tableWithin_composed pool maxLevels) fun _ => .pure _

theorem readMagic_composed : Composed readMagic := by
  refine .bind .u32 fun magic => ?_
  split
  · exact .throw _
  · exact .pure _

theorem readBody_composed (pool : ConstantPool) : Composed (readBody pool) :=
  .bind .u16 fun _ => .bind .u16 fun _ => .bind (.lift _) fun _ => .bind .u16 fun _ =>
    .bind (.lift _) fun _ => .bind (.table (Attribute.className_composed pool)) fun _ =>
    .bind (.table (member_composed pool)) fun _ => .bind (.table (member_composed pool)) fun _ =>
    .bind (Attribute.tableWithin_composed pool maxLevels) fun _ => .bind (.lift _) fun _ => .pure _

theorem readClass_composed : Composed readClass :=
  .bind readMagic_composed fun _ => .bind .u16 fun _ => .bind .u16 fun _ =>
    .bind ConstantPool.read_composed fun pool => readBody_composed pool

end PackageAudit.ClassFile
