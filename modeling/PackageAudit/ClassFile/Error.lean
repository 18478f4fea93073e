/-!
What can be wrong with a class file.

Offsets count from the start of the file, also for structures that are read inside others.
-/

namespace PackageAudit.ClassFile

inductive Expected where
  | utf8
  | classRef
  | nameAndType
  | memberReference
  deriving DecidableEq, Repr

def Expected.name : Expected → String
  | .utf8 => "Utf8"
  | .classRef => "Class"
  | .nameAndType => "NameAndType"
  | .memberReference => "member reference"

inductive DecodeError where
  | badMagic (found : UInt32)
  | truncated (offset needed available : Nat)
  /-- A reference to slot zero, to the second slot of a wide constant or past the pool. -/
  | indexOutOfRange (index : UInt16) (poolSize : Nat)
  | unexpectedConstant (index : UInt16) (expected : Expected)
  | unknownTag (tag : UInt8) (offset : Nat)
  | badElementValue (tag : UInt8) (offset : Nat)
  | nestingTooDeep (offset : Nat)
  deriving DecidableEq, Repr

/-- A number in hexadecimal, filled with zeros to a width. -/
def hex (width n : Nat) : String :=
  let digits := Nat.toDigits 16 n
  "0x" ++ String.ofList (List.replicate (width - digits.length) '0' ++ digits)

def DecodeError.message : DecodeError → String
  | .badMagic found => s!"not a class file: magic is {hex 8 found.toNat}"
  | .truncated offset needed available =>
    s!"truncated at offset {offset}: needed {needed} bytes, {available} available"
  | .indexOutOfRange index poolSize =>
    s!"constant pool index {index} is not usable (pool size {poolSize})"
  | .unexpectedConstant index expected =>
    s!"constant pool entry {index} is not a {expected.name} entry"
  | .unknownTag tag offset => s!"unknown constant pool tag {tag} at offset {offset}"
  | .badElementValue tag offset =>
    s!"unknown annotation element tag {hex 2 tag.toNat} at offset {offset}"
  | .nestingTooDeep offset => s!"structure nested deeper than 256 levels at offset {offset}"

end PackageAudit.ClassFile
