import PackageAudit.ClassFile.Cursor
import PackageAudit.Text.ModifiedUtf8
/-!
The constant pool of a class file.

Constants are numbered from one, and a long or double takes two numbers, of which the second names
nothing. Constants refer to one another by number, forwards and backwards, so references are checked
once all constants have been read; after that, looking up what a constant refers to cannot fail. A
text is decoded when it is first looked up and kept, since many attributes share a name.
-/

namespace PackageAudit.ClassFile

inductive Constant where
  | utf8 (bytes : List UInt8)
  | integer (bits : UInt32)
  | float (bits : UInt32)
  | long (high low : UInt32)
  | double (high low : UInt32)
  | classRef (name : UInt16)
  | string (text : UInt16)
  | fieldRef (owner nameAndType : UInt16)
  | methodRef (owner nameAndType : UInt16)
  | interfaceMethodRef (owner nameAndType : UInt16)
  | nameAndType (name descriptor : UInt16)
  | methodHandle (kind : UInt8) (reference : UInt16)
  | methodType (descriptor : UInt16)
  /-- The bootstrap number counts methods of an attribute and is no reference into the pool. -/
  | dynamic (bootstrap nameAndType : UInt16)
  | invokeDynamic (bootstrap nameAndType : UInt16)
  | module (name : UInt16)
  | package (name : UInt16)
  deriving DecidableEq, Repr

namespace Constant

/-- Longs and doubles take two slots. -/
def isWide : Constant → Bool
  | .long _ _ | .double _ _ => true
  | _ => false

def read : Reader Constant := do
  let offset ← Reader.offset
  let tag ← Reader.u8
  match tag.toNat with
  | 1 => return .utf8 (← Reader.bytes (← Reader.u16).toNat)
  | 3 => return .integer (← Reader.u32)
  | 4 => return .float (← Reader.u32)
  | 5 => wide .long
  | 6 => wide .double
  | 7 => return .classRef (← Reader.u16)
  | 8 => return .string (← Reader.u16)
  | 9 => pair .fieldRef
  | 10 => pair .methodRef
  | 11 => pair .interfaceMethodRef
  | 12 => pair .nameAndType
  | 15 => do
    let kind ← Reader.u8
    return .methodHandle kind (← Reader.u16)
  | 16 => return .methodType (← Reader.u16)
  | 17 => pair .dynamic
  | 18 => pair .invokeDynamic
  | 19 => return .module (← Reader.u16)
  | 20 => return .package (← Reader.u16)
  | _ => throw (.unknownTag tag offset)
where
  pair (make : UInt16 → UInt16 → Constant) : Reader Constant := do
    let first ← Reader.u16
    return make first (← Reader.u16)
  /-- The eight bytes of a wide constant are present or missing together. -/
  wide (make : UInt32 → UInt32 → Constant) : Reader Constant :=
    Reader.within 8 do
      let high ← Reader.u32
      return make high (← Reader.u32)

def references : Constant → List (UInt16 × Expected)
  | .classRef name | .module name | .package name | .string name | .methodType name =>
    [(name, .utf8)]
  | .nameAndType name descriptor => [(name, .utf8), (descriptor, .utf8)]
  | .fieldRef owner member | .methodRef owner member | .interfaceMethodRef owner member =>
    [(owner, .classRef), (member, .nameAndType)]
  | .methodHandle _ reference => [(reference, .memberReference)]
  | .dynamic _ member | .invokeDynamic _ member => [(member, .nameAndType)]
  | .utf8 _ | .integer _ | .float _ | .long _ _ | .double _ _ => []

end Constant

def Expected.accepts : Expected → Constant → Bool
  | .utf8, .utf8 _ => true
  | .classRef, .classRef _ => true
  | .nameAndType, .nameAndType _ _ => true
  | .memberReference, .fieldRef _ _ => true
  | .memberReference, .methodRef _ _ => true
  | .memberReference, .interfaceMethodRef _ _ => true
  | _, _ => false

/-- The text of the constant in a slot, if it is one. -/
def slotText : Option Constant → Thunk String
  | some (.utf8 bytes) => .mk fun _ => Text.ofModifiedUtf8 bytes
  | _ => .pure ""

/-- The constants by number; slots that name nothing are empty. -/
structure ConstantPool where
  slots : Array (Option Constant)
  texts : Array (Thunk String) := slots.map slotText
  texts_eq : texts = slots.map slotText := by rfl

namespace ConstantPool

def ofSlots (slots : List (Option Constant)) : ConstantPool := { slots := slots.toArray }

@[simp]
theorem slots_ofSlots (slots : List (Option Constant)) : (ofSlots slots).slots = slots.toArray :=
  rfl

def size (pool : ConstantPool) : Nat := pool.slots.size

def get (pool : ConstantPool) (index : UInt16) : Except DecodeError Constant :=
  match pool.slots[index.toNat]? with
  | some (some constant) => .ok constant
  | _ => .error (.indexOutOfRange index pool.size)

def check (pool : ConstantPool) (reference : UInt16 × Expected) : Except DecodeError Unit := do
  let constant ← pool.get reference.1
  if reference.2.accepts constant then return ()
  else throw (.unexpectedConstant reference.1 reference.2)

/-- Checks every reference of every constant, in slot order. -/
def checkReferences (pool : ConstantPool) : Except DecodeError Unit :=
  (pool.slots.toList.flatMap fun slot => (slot.map Constant.references).getD []).forM pool.check

/-- Reads constants into the next `count` slots, behind those already filled, latest first. A wide
constant in the last slot has no second slot. -/
def readSlots (filled : List (Option Constant)) : Nat → Reader (List (Option Constant))
  | 0 => return filled.reverse
  | count + 1 => do
    let constant ← Constant.read
    if constant.isWide then
      match count with
      | 0 => return (some constant :: filled).reverse
      | count + 1 => readSlots (none :: some constant :: filled) count
    else readSlots (some constant :: filled) count

/-- Reads the pool, whose declared count includes the empty slot zero. -/
def read : Reader ConstantPool := do
  let count ← Reader.u16
  let slots ← readSlots [none] (count.toNat - 1)
  -- References may point forwards, so none is checked before all constants are read.
  let pool := ofSlots slots
  pool.checkReferences
  return pool

def decoded (pool : ConstantPool) (index : UInt16) : String :=
  match pool.texts[index.toNat]? with
  | some text => text.get
  | none => ""

def text (pool : ConstantPool) (index : UInt16) : Except DecodeError String := do
  match ← pool.get index with
  | .utf8 _ => return pool.decoded index
  | _ => throw (.unexpectedConstant index .utf8)

/-- The internal name of a class, whose parts are separated by slashes. -/
def className (pool : ConstantPool) (index : UInt16) : Except DecodeError String := do
  match ← pool.get index with
  | .classRef name => pool.text name
  | _ => throw (.unexpectedConstant index .classRef)

def nameAndTypeDescriptor (pool : ConstantPool) (index : UInt16) : Except DecodeError String := do
  match ← pool.get index with
  | .nameAndType _ descriptor => pool.text descriptor
  | _ => throw (.unexpectedConstant index .nameAndType)

end ConstantPool

end PackageAudit.ClassFile
