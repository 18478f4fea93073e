import PackageAudit.ClassFile.ConstantPool
/-!
The bytes of constants and of counted tables.

Numbers are written big-endian and cut to their width, so a count that does not fit in its field is
written as what remains of it.
-/

namespace PackageAudit.ClassFile

def bytes16 (n : Nat) : List UInt8 := [.ofNat (n / 256), .ofNat n]

def bytes32 (n : Nat) : List UInt8 :=
  [.ofNat (n / 16777216), .ofNat (n / 65536), .ofNat (n / 256), .ofNat n]

def encode16 (word : UInt16) : List UInt8 := bytes16 word.toNat

def encode32 (word : UInt32) : List UInt8 := bytes32 word.toNat

def encodeTable (items : List (List UInt8)) : List UInt8 := bytes16 items.length ++ items.flatten

def Constant.encode : Constant → List UInt8
  | .utf8 bytes => 1 :: bytes16 bytes.length ++ bytes
  | .integer bits => 3 :: encode32 bits
  | .float bits => 4 :: encode32 bits
  | .long high low => 5 :: encode32 high ++ encode32 low
  | .double high low => 6 :: encode32 high ++ encode32 low
  | .classRef name => 7 :: encode16 name
  | .string text => 8 :: encode16 text
  | .fieldRef owner member => 9 :: encode16 owner ++ encode16 member
  | .methodRef owner member => 10 :: encode16 owner ++ encode16 member
  | .interfaceMethodRef owner member => 11 :: encode16 owner ++ encode16 member
  | .nameAndType name descriptor => 12 :: encode16 name ++ encode16 descriptor
  | .methodHandle kind reference => 15 :: kind :: encode16 reference
  | .methodType descriptor => 16 :: encode16 descriptor
  | .dynamic bootstrap member => 17 :: encode16 bootstrap ++ encode16 member
  | .invokeDynamic bootstrap member => 18 :: encode16 bootstrap ++ encode16 member
  | .module name => 19 :: encode16 name
  | .package name => 20 :: encode16 name

def Constant.slotCount (constant : Constant) : Nat := if constant.isWide then 2 else 1

end PackageAudit.ClassFile
