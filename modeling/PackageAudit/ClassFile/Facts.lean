import PackageAudit.ClassFile.Signature
import PackageAudit.Text.Search
/-!
What reading a class file finds: the mentions of other types, in the order in which they stand, and
the name of the source file.
-/

namespace PackageAudit.ClassFile

/-- A reference to types by a class constant, or by a descriptor or signature. -/
inductive Mention where
  | className (name : String)
  | typeText (text : String)
  deriving DecidableEq, Repr

/-- The package of an internal name, written with dots. -/
def packageOfInternal (name : String) : String :=
  Text.replaceChar '/' '.' (Text.beforeLast '/' name)

/-- The packages of the types mentioned. Array classes are named by their descriptors. -/
def Mention.packages : Mention → List String
  | .className name =>
    if name.toList.head? = some '[' then (Signature.classNames name).map packageOfInternal
    else [packageOfInternal name]
  | .typeText text => (Signature.classNames text).map packageOfInternal

structure Facts where
  mentions : List Mention := []
  sourceFile : Option String := none
  deriving DecidableEq, Repr

namespace Facts

def empty : Facts := {}

def mentioning (mentions : List Mention) : Facts := { mentions := mentions }

/-- Facts found one after the other; a later source file replaces an earlier one. -/
def append (earlier later : Facts) : Facts where
  mentions := earlier.mentions ++ later.mentions
  sourceFile := later.sourceFile <|> earlier.sourceFile

def concat (parts : List Facts) : Facts := parts.foldr append empty

end Facts

end PackageAudit.ClassFile
