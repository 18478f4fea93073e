import PackageAudit.ClassFile.ConstantPool
import PackageAudit.ClassFile.Facts
/-!
The attributes of classes, fields, methods and method bodies.

Each attribute is read within its declared length, so one that is not recognised is skipped whole
and one that is recognised cannot run over. Element values nest in arrays and annotations, and
method bodies in the attributes of method bodies; both are read down to a number of levels, by
recursion on the levels that are left.
-/

namespace PackageAudit.ClassFile

/-- How many element values, or how many method bodies, may enclose one another. -/
def maxLevels : Nat := 256

namespace Attribute

def tooDeep {α : Type} : Reader α := do
  throw (.nestingTooDeep (← Reader.offset))

def className (pool : ConstantPool) : Reader Mention := do
  return .className (← pool.className (← Reader.u16))

/-- Zero in place of a class means that there is none. -/
def classNameIfAny (pool : ConstantPool) (index : UInt16) : Except DecodeError (List Mention) :=
  if index = 0 then return []
  else return [.className (← pool.className index)]

def typeText (pool : ConstantPool) : Reader Mention := do
  return .typeText (← pool.text (← Reader.u16))

/-- A named element of an annotation, given a reader for its value. -/
def element (value : Reader (List Mention)) : Reader (List Mention) := do
  let _ ← Reader.u16
  value

/-- An annotation, given a reader for its element values. -/
def annotationBody (pool : ConstantPool) (value : Reader (List Mention)) :
    Reader (List Mention) := do
  let type ← typeText pool
  let values ← Reader.table (element value)
  return type :: values.flatten

def isConstantTag (tag : UInt8) : Bool := "BCDFIJSZs".toList.any (·.toNat == tag.toNat)

/-- An element value that may enclose others down to a number of levels. -/
def elementValue (pool : ConstantPool) : Nat → Reader (List Mention)
  | 0 => tooDeep
  | levels + 1 => do
    let offset ← Reader.offset
    let tag ← Reader.u8
    if isConstantTag tag then
      let _ ← Reader.u16
      return []
    else if tag.toNat = 'e'.toNat then
      let type ← Reader.u16
      -- The name of the constant mentions nothing.
      let _ ← Reader.u16
      return [.typeText (← pool.text type)]
    else if tag.toNat = 'c'.toNat then
      return [← typeText pool]
    else if tag.toNat = '@'.toNat then
      annotationBody pool (elementValue pool levels)
    else if tag.toNat = '['.toNat then
      return (← Reader.table (elementValue pool levels)).flatten
    else
      throw (.badElementValue tag offset)

def annotations (pool : ConstantPool) : Reader (List Mention) := do
  return (← Reader.table (annotationBody pool (elementValue pool maxLevels))).flatten

def parameterAnnotations (pool : ConstantPool) : Reader (List Mention) := do
  let parameters ← Reader.u8
  return (← Reader.times parameters.toNat (annotations pool)).flatten

def innerClass (pool : ConstantPool) : Reader (List Mention) := do
  let inner ← Reader.u16
  let outer ← Reader.u16
  -- The simple name and the access flags.
  let _ ← Reader.u16
  let _ ← Reader.u16
  return (← classNameIfAny pool inner) ++ (← classNameIfAny pool outer)

def innerClasses (pool : ConstantPool) : Reader (List Mention) := do
  return (← Reader.table (innerClass pool)).flatten

def enclosingMethod (pool : ConstantPool) : Reader (List Mention) := do
  let owner ← Reader.u16
  let method ← Reader.u16
  let name ← pool.className owner
  if method = 0 then return [.className name]
  else return [.className name, .typeText (← pool.nameAndTypeDescriptor method)]

def localVariable (pool : ConstantPool) : Reader Mention := do
  -- Where the variable is alive, and its name.
  let _ ← Reader.u16
  let _ ← Reader.u16
  let _ ← Reader.u16
  let descriptor ← Reader.u16
  let _ ← Reader.u16
  return .typeText (← pool.text descriptor)

/-- An exception handler. Zero as its type means that it catches everything. -/
def handler (pool : ConstantPool) : Reader (List Mention) := do
  -- The instructions that are covered, and those of the handler itself.
  let _ ← Reader.u16
  let _ ← Reader.u16
  let _ ← Reader.u16
  classNameIfAny pool (← Reader.u16)

/-- A method body, given a reader for its own attribute table. -/
def code (pool : ConstantPool) (attributes : Reader Facts) : Reader Facts := do
  -- The sizes of the stack and of the frame.
  let _ ← Reader.u16
  let _ ← Reader.u16
  let length ← Reader.u32
  Reader.skip length.toNat
  let handlers ← Reader.table (handler pool)
  let nested ← attributes
  return (Facts.mentioning handlers.flatten).append nested

/-- The payload of an attribute by its name, given a reader for method bodies. -/
def payload (pool : ConstantPool) (body : Reader Facts) (name : String) : Reader Facts :=
  match name with
  | "SourceFile" => do return { sourceFile := some (← pool.text (← Reader.u16)) }
  | "Signature" => do return .mentioning [← typeText pool]
  | "Exceptions" => do return .mentioning (← Reader.table (className pool))
  | "InnerClasses" => do return .mentioning (← innerClasses pool)
  | "EnclosingMethod" => do return .mentioning (← enclosingMethod pool)
  | "RuntimeVisibleAnnotations" | "RuntimeInvisibleAnnotations" => do
    return .mentioning (← annotations pool)
  | "RuntimeVisibleParameterAnnotations" | "RuntimeInvisibleParameterAnnotations" => do
    return .mentioning (← parameterAnnotations pool)
  | "AnnotationDefault" => do return .mentioning (← elementValue pool maxLevels)
  | "Code" => body
  | "LocalVariableTable" | "LocalVariableTypeTable" => do
    return .mentioning (← Reader.table (localVariable pool))
  | _ => return .empty

def entry (pool : ConstantPool) (body : Reader Facts) : Reader Facts := do
  let nameIndex ← Reader.u16
  let length ← Reader.u32
  -- A name that cannot be looked up is reported before a payload that is cut short.
  let name ← pool.text nameIndex
  Reader.within length.toNat (payload pool body name)

def table (pool : ConstantPool) (body : Reader Facts) : Reader Facts := do
  return .concat (← Reader.table (entry pool body))

/-- A method body that may enclose others down to a number of levels. -/
def bodyWithin (pool : ConstantPool) : Nat → Reader Facts
  | 0 => tooDeep
  | levels + 1 => code pool (table pool (bodyWithin pool levels))

/-- An attribute table in which method bodies nest down to a number of levels. -/
def tableWithin (pool : ConstantPool) (levels : Nat) : Reader Facts :=
  table pool (bodyWithin pool levels)

end Attribute

end PackageAudit.ClassFile
