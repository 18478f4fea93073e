import PackageAudit.ClassFile.Attribute
import PackageAudit.ClassRecord
/-!
Decoding a class file into a class record.

The packages a class refers to are those of the types mentioned anywhere in the structures that are
walked, together with those of every class, descriptor and method type in the constant pool, whether
a structure uses it or not.
-/

namespace PackageAudit.ClassFile

/-- The types that the constant in a slot mentions, if there is one. -/
def ConstantPool.mentionsOf (pool : ConstantPool) :
    Option Constant → Except DecodeError (List Mention)
  | some (.classRef name) => return [.className (← pool.text name)]
  | some (.nameAndType _ descriptor) | some (.methodType descriptor) =>
    return [.typeText (← pool.text descriptor)]
  | _ => return []

def ConstantPool.mentions (pool : ConstantPool) : Except DecodeError (List Mention) := do
  return (← pool.slots.toList.mapM pool.mentionsOf).flatten

def member (pool : ConstantPool) : Reader Facts := do
  -- The access flags and the name.
  let _ ← Reader.u16
  let _ ← Reader.u16
  let descriptor ← Attribute.typeText pool
  let attributes ← Attribute.tableWithin pool maxLevels
  return (Facts.mentioning [descriptor]).append attributes

/-- Interfaces and abstract classes count as abstract. -/
def isAbstractAccess (access : UInt16) : Bool := access &&& 0x0600 != 0

def readMagic : Reader Unit := do
  let magic ← Reader.u32
  if magic ≠ 0xCAFEBABE then throw (.badMagic magic)

/-- The class behind its constant pool. -/
def readBody (pool : ConstantPool) : Reader ClassRecord := do
  let access ← Reader.u16
  let name ← pool.className (← Reader.u16)
  let superclass ← Attribute.classNameIfAny pool (← Reader.u16)
  let interfaces ← Reader.table (Attribute.className pool)
  let fields ← Reader.table (member pool)
  let methods ← Reader.table (member pool)
  let attributes ← Attribute.tableWithin pool maxLevels
  let constants ← pool.mentions
  let facts := Facts.concat
    ([.mentioning (.className name :: superclass ++ interfaces)] ++ fields ++ methods ++
      [attributes, .mentioning constants])
  return .ofReferences (Text.replaceChar '/' '.' name) facts.sourceFile (isAbstractAccess access)
    (facts.mentions.flatMap (·.packages))

def readClass : Reader ClassRecord := do
  readMagic
  -- The version of the format.
  let _ ← Reader.u16
  let _ ← Reader.u16
  readBody (← ConstantPool.read)

/-- The record of the class in a class file, or what is wrong with the file. -/
def decode (bytes : List UInt8) : Except DecodeError ClassRecord :=
  (readClass ⟨0, bytes⟩).map (·.1)

end PackageAudit.ClassFile
