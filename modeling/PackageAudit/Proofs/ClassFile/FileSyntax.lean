import PackageAudit.Proofs.ClassFile.PoolReading
import PackageAudit.Proofs.ClassFile.Recognition
/-!
The syntax of class files.

A class file is a list of constants and a tree of structures that refer to them. References carry
what they lead to and counts fit in their fields, so every tree is one of a class file that can be
read; element values and method bodies nest only down to a number of levels, which is part of the
type of their trees. From a tree can be told its bytes, the descriptors and signatures that stand in
it, and what reading it finds.
-/

namespace PackageAudit.ClassFile

/-! ### References -/

/-- The constant at a number is a text. -/
def TextAt (constants : List Constant) (slot : UInt16) (text : String) : Prop :=
  ∃ bytes, StandsAt constants slot.toNat (.utf8 bytes) ∧ Text.ofModifiedUtf8 bytes = text

structure TextRef (constants : List Constant) where
  slot : UInt16
  text : String
  stands : TextAt constants slot text

structure ClassRef (constants : List Constant) where
  slot : UInt16
  name : TextRef constants
  stands : StandsAt constants slot.toNat (.classRef name.slot)

/-- A reference to the name and descriptor of a member. -/
structure MemberRef (constants : List Constant) where
  slot : UInt16
  name : UInt16
  descriptor : TextRef constants
  stands : StandsAt constants slot.toNat (.nameAndType name descriptor.slot)

section References

variable {constants : List Constant}

def TextRef.encode (reference : TextRef constants) : List UInt8 := encode16 reference.slot

def TextRef.mention (reference : TextRef constants) : Mention := .typeText reference.text

def ClassRef.encode (reference : ClassRef constants) : List UInt8 := encode16 reference.slot

def ClassRef.mention (reference : ClassRef constants) : Mention := .className reference.name.text

/-- No class is written as zero, where no constant stands. -/
def classSlot (reference : Option (ClassRef constants)) : UInt16 := reference.elim 0 (·.slot)

def encodeClassIfAny (reference : Option (ClassRef constants)) : List UInt8 :=
  encode16 (classSlot reference)

def classMentions (reference : Option (ClassRef constants)) : List Mention :=
  reference.toList.map ClassRef.mention

end References

/-! ### Element values -/

/-- An annotation whose element values are trees of some type. -/
structure AnnotationOf (constants : List Constant) (τ : Type) where
  type : TextRef constants
  elements : Table (UInt16 × τ)

/-- An element value whose inner values are trees of some type. -/
inductive ElementOf (constants : List Constant) (τ : Type) where
  | constant (tag : UInt8) (known : Attribute.isConstantTag tag = true) (value : UInt16)
  | enumConstant (type : TextRef constants) (name : UInt16)
  | classLiteral (type : TextRef constants)
  | annotated (inner : AnnotationOf constants τ)
  | array (values : Table τ)

/-- Element values that enclose one another down to a number of levels. -/
def ElementTree (constants : List Constant) : Nat → Type
  | 0 => Empty
  | levels + 1 => ElementOf constants (ElementTree constants levels)

abbrev AnnotationTree (constants : List Constant) :=
  AnnotationOf constants (ElementTree constants maxLevels)

section Elements

variable {constants : List Constant} {τ : Type}

def encodeElement (value : τ → List UInt8) (element : UInt16 × τ) : List UInt8 :=
  encode16 element.1 ++ value element.2

namespace AnnotationOf

def encode (value : τ → List UInt8) (tree : AnnotationOf constants τ) : List UInt8 :=
  tree.type.encode ++ tree.elements.encode (encodeElement value)

def typeTexts (value : τ → List String) (tree : AnnotationOf constants τ) : List String :=
  tree.type.text :: tree.elements.items.flatMap fun element => value element.2

end AnnotationOf

namespace ElementOf

def encode (value : τ → List UInt8) : ElementOf constants τ → List UInt8
  | .constant tag _ number => tag :: encode16 number
  | .enumConstant type name => .ofNat 'e'.toNat :: (type.encode ++ encode16 name)
  | .classLiteral type => .ofNat 'c'.toNat :: type.encode
  | .annotated inner => .ofNat '@'.toNat :: inner.encode value
  | .array values => .ofNat '['.toNat :: values.encode value

def typeTexts (value : τ → List String) : ElementOf constants τ → List String
  | .constant _ _ _ => []
  | .enumConstant type _ | .classLiteral type => [type.text]
  | .annotated inner => inner.typeTexts value
  | .array values => values.items.flatMap value

end ElementOf

namespace ElementTree

def encode : (levels : Nat) → ElementTree constants levels → List UInt8
  | 0 => Empty.elim
  | levels + 1 => ElementOf.encode (encode levels)

def typeTexts : (levels : Nat) → ElementTree constants levels → List String
  | 0 => Empty.elim
  | levels + 1 => ElementOf.typeTexts (typeTexts levels)

end ElementTree

namespace AnnotationTree

def encode (tree : AnnotationTree constants) : List UInt8 :=
  AnnotationOf.encode (ElementTree.encode maxLevels) tree

def typeTexts (tree : AnnotationTree constants) : List String :=
  AnnotationOf.typeTexts (ElementTree.typeTexts maxLevels) tree

end AnnotationTree

end Elements

/-! ### Rows -/

structure InnerClassRow (constants : List Constant) where
  inner : Option (ClassRef constants)
  outer : Option (ClassRef constants)
  simpleName : UInt16
  flags : UInt16

structure EnclosingMethodRow (constants : List Constant) where
  owner : ClassRef constants
  method : Option (MemberRef constants)

structure LocalVariableRow (constants : List Constant) where
  start : UInt16
  length : UInt16
  name : UInt16
  type : TextRef constants
  frameSlot : UInt16

structure HandlerRow (constants : List Constant) where
  start : UInt16
  stop : UInt16
  target : UInt16
  caught : Option (ClassRef constants)

section Rows

variable {constants : List Constant}

namespace InnerClassRow

def encode (row : InnerClassRow constants) : List UInt8 :=
  encodeClassIfAny row.inner ++
    (encodeClassIfAny row.outer ++ (encode16 row.simpleName ++ encode16 row.flags))

def mentions (row : InnerClassRow constants) : List Mention :=
  classMentions row.inner ++ classMentions row.outer

end InnerClassRow

namespace EnclosingMethodRow

def encode (row : EnclosingMethodRow constants) : List UInt8 :=
  row.owner.encode ++ encode16 (row.method.elim 0 (·.slot))

def mentions (row : EnclosingMethodRow constants) : List Mention :=
  row.owner.mention :: row.method.toList.map (·.descriptor.mention)

end EnclosingMethodRow

def LocalVariableRow.encode (row : LocalVariableRow constants) : List UInt8 :=
  encode16 row.start ++ (encode16 row.length ++
    (encode16 row.name ++ (row.type.encode ++ encode16 row.frameSlot)))

def HandlerRow.encode (row : HandlerRow constants) : List UInt8 :=
  encode16 row.start ++ (encode16 row.stop ++ (encode16 row.target ++ encodeClassIfAny row.caught))

end Rows

/-! ### Attributes -/

/-- What can stand in an attribute. -/
inductive AttributeKind where
  | sourceFile
  | signature
  | exceptions
  | innerClasses
  | enclosingMethod
  | annotations
  | parameterAnnotations
  | annotationDefault
  | code
  | localVariables
  | unrecognized
  deriving DecidableEq

/-- The name of an attribute decides what stands in it. -/
def AttributeKind.ofName (name : String) : AttributeKind :=
  match name with
  | "SourceFile" => .sourceFile
  | "Signature" => .signature
  | "Exceptions" => .exceptions
  | "InnerClasses" => .innerClasses
  | "EnclosingMethod" => .enclosingMethod
  | "RuntimeVisibleAnnotations" | "RuntimeInvisibleAnnotations" => .annotations
  | "RuntimeVisibleParameterAnnotations" | "RuntimeInvisibleParameterAnnotations" =>
    .parameterAnnotations
  | "AnnotationDefault" => .annotationDefault
  | "Code" => .code
  | "LocalVariableTable" | "LocalVariableTypeTable" => .localVariables
  | _ => .unrecognized

/-- What stands in an attribute, where method bodies are trees of some type. -/
inductive Payload (constants : List Constant) (β : Type) : AttributeKind → Type where
  | sourceFile (file : TextRef constants) : Payload constants β .sourceFile
  | signature (type : TextRef constants) : Payload constants β .signature
  | exceptions (classes : Table (ClassRef constants)) : Payload constants β .exceptions
  | innerClasses (rows : Table (InnerClassRow constants)) : Payload constants β .innerClasses
  | enclosingMethod (row : EnclosingMethodRow constants) : Payload constants β .enclosingMethod
  | annotations (list : Table (AnnotationTree constants)) : Payload constants β .annotations
  | parameterAnnotations (parameters : List (Table (AnnotationTree constants)))
    (few : parameters.length ≤ 255) : Payload constants β .parameterAnnotations
  | annotationDefault (value : ElementTree constants maxLevels) :
    Payload constants β .annotationDefault
  | code (body : β) : Payload constants β .code
  | localVariables (rows : Table (LocalVariableRow constants)) : Payload constants β .localVariables
  | unrecognized : Payload constants β .unrecognized

/-- Trees of method bodies with their bytes. -/
structure BodySyntax where
  Tree : Type
  encode : Tree → List UInt8

section Payloads

variable {constants : List Constant} {β : Type} {kind : AttributeKind}

namespace Payload

def encode (body : β → List UInt8) : Payload constants β kind → List UInt8
  | .sourceFile file => file.encode
  | .signature type => type.encode
  | .exceptions classes => classes.encode ClassRef.encode
  | .innerClasses rows => rows.encode InnerClassRow.encode
  | .enclosingMethod row => row.encode
  | .annotations list => list.encode AnnotationTree.encode
  | .parameterAnnotations parameters _ =>
    .ofNat parameters.length :: (parameters.map (·.encode AnnotationTree.encode)).flatten
  | .annotationDefault value => ElementTree.encode maxLevels value
  | .code tree => body tree
  | .localVariables rows => rows.encode LocalVariableRow.encode
  | .unrecognized => []

/-- The descriptors and signatures that stand in the attribute by themselves. -/
def typeTexts (body : β → List String) : Payload constants β kind → List String
  | .signature type => [type.text]
  | .annotations list => list.items.flatMap AnnotationTree.typeTexts
  | .parameterAnnotations parameters _ =>
    parameters.flatMap fun list => list.items.flatMap AnnotationTree.typeTexts
  | .annotationDefault value => ElementTree.typeTexts maxLevels value
  | .code tree => body tree
  | .localVariables rows => rows.items.map (·.type.text)
  | .sourceFile _ | .exceptions _ | .innerClasses _ | .enclosingMethod _ | .unrecognized => []

def facts (body : β → Facts) : Payload constants β kind → Facts
  | .sourceFile file => { sourceFile := some file.text }
  | .exceptions classes => .mentioning (classes.items.map ClassRef.mention)
  | .innerClasses rows => .mentioning (rows.items.flatMap InnerClassRow.mentions)
  | .enclosingMethod row => .mentioning row.mentions
  | .code tree => body tree
  | .unrecognized => {}
  | .signature type => .mentioning [type.mention]
  | .annotations list => .mentioning ((list.items.flatMap AnnotationTree.typeTexts).map .typeText)
  | .parameterAnnotations parameters _ =>
    .mentioning ((parameters.flatMap fun list =>
      list.items.flatMap AnnotationTree.typeTexts).map .typeText)
  | .annotationDefault value => .mentioning ((ElementTree.typeTexts maxLevels value).map .typeText)
  | .localVariables rows => .mentioning (rows.items.map (·.type.mention))

end Payload

end Payloads

/-- An attribute; what stands behind its payload within its length is not read. -/
structure AttributeOf (constants : List Constant) (bodies : BodySyntax) where
  name : TextRef constants
  payload : Payload constants bodies.Tree (.ofName name.text)
  unread : List UInt8
  short : (payload.encode bodies.encode ++ unread).length < 4294967296

/-- A method body whose attributes are trees of some type. -/
structure CodeOf (constants : List Constant) (τ : Type) where
  stack : UInt16
  frame : UInt16
  instructions : List UInt8
  short : instructions.length < 4294967296
  handlers : Table (HandlerRow constants)
  attributes : Table τ

section Bodies

variable {constants : List Constant} {bodies : BodySyntax} {τ : Type}

namespace AttributeOf

def encode (tree : AttributeOf constants bodies) : List UInt8 :=
  let payload := tree.payload.encode bodies.encode ++ tree.unread
  tree.name.encode ++ (bytes32 payload.length ++ payload)

def typeTexts (body : bodies.Tree → List String) (tree : AttributeOf constants bodies) :
    List String :=
  tree.payload.typeTexts body

def facts (body : bodies.Tree → Facts) (tree : AttributeOf constants bodies) : Facts :=
  tree.payload.facts body

end AttributeOf

/-- What the trees of a table find one after the other. -/
def Table.facts (item : τ → Facts) (table : Table τ) : Facts := .concat (table.items.map item)

namespace CodeOf

def encode (item : τ → List UInt8) (code : CodeOf constants τ) : List UInt8 :=
  encode16 code.stack ++ (encode16 code.frame ++ (bytes32 code.instructions.length ++
    (code.instructions ++ (code.handlers.encode HandlerRow.encode ++
      code.attributes.encode item))))

def typeTexts (item : τ → List String) (code : CodeOf constants τ) : List String :=
  code.attributes.items.flatMap item

def facts (item : τ → Facts) (code : CodeOf constants τ) : Facts :=
  (Facts.mentioning (code.handlers.items.flatMap fun row => classMentions row.caught)).append
    (code.attributes.facts item)

end CodeOf

/-- Method bodies that enclose one another down to a number of levels. -/
def bodySyntax (constants : List Constant) : Nat → BodySyntax
  | 0 => ⟨Empty, Empty.elim⟩
  | levels + 1 =>
    ⟨CodeOf constants (AttributeOf constants (bodySyntax constants levels)),
      CodeOf.encode AttributeOf.encode⟩

def bodyTypeTexts : (levels : Nat) → (bodySyntax constants levels).Tree → List String
  | 0 => Empty.elim
  | levels + 1 => CodeOf.typeTexts (AttributeOf.typeTexts (bodyTypeTexts levels))

def bodyFacts : (levels : Nat) → (bodySyntax constants levels).Tree → Facts
  | 0 => Empty.elim
  | levels + 1 => CodeOf.facts (AttributeOf.facts (bodyFacts levels))

end Bodies

abbrev AttributeTree (constants : List Constant) :=
  AttributeOf constants (bodySyntax constants maxLevels)

/-! ### Classes -/

/-- A field or method. -/
structure MemberTree (constants : List Constant) where
  access : UInt16
  name : UInt16
  descriptor : TextRef constants
  attributes : Table (AttributeTree constants)

/-- A class behind its constants. -/
structure ClassTree (constants : List Constant) where
  access : UInt16
  thisClass : ClassRef constants
  superclass : Option (ClassRef constants)
  interfaces : Table (ClassRef constants)
  fields : Table (MemberTree constants)
  methods : Table (MemberTree constants)
  attributes : Table (AttributeTree constants)

section Classes

variable {constants : List Constant}

namespace AttributeTree

def typeTexts (tree : AttributeTree constants) : List String :=
  AttributeOf.typeTexts (bodyTypeTexts maxLevels) tree

def facts (tree : AttributeTree constants) : Facts :=
  AttributeOf.facts (bodyFacts maxLevels) tree

end AttributeTree

namespace MemberTree

def encode (member : MemberTree constants) : List UInt8 :=
  encode16 member.access ++ (encode16 member.name ++ (member.descriptor.encode ++
    member.attributes.encode AttributeOf.encode))

def typeTexts (member : MemberTree constants) : List String :=
  member.descriptor.text :: member.attributes.items.flatMap AttributeTree.typeTexts

def facts (member : MemberTree constants) : Facts :=
  (Facts.mentioning [member.descriptor.mention]).append (member.attributes.facts AttributeTree.facts)

end MemberTree

namespace ClassTree

def encode (tree : ClassTree constants) : List UInt8 :=
  encode16 tree.access ++ (tree.thisClass.encode ++ (encodeClassIfAny tree.superclass ++
    (tree.interfaces.encode ClassRef.encode ++ (tree.fields.encode MemberTree.encode ++
      (tree.methods.encode MemberTree.encode ++ tree.attributes.encode AttributeOf.encode)))))

def typeTexts (tree : ClassTree constants) : List String :=
  tree.fields.items.flatMap MemberTree.typeTexts ++ tree.methods.items.flatMap MemberTree.typeTexts ++
    tree.attributes.items.flatMap AttributeTree.typeTexts

/-- What reading finds in the structures behind the constants, and then of the constants. -/
def facts (tree : ClassTree constants) (ofConstants : List Mention) : Facts :=
  .concat ([.mentioning (tree.thisClass.mention :: classMentions tree.superclass ++
      tree.interfaces.items.map ClassRef.mention)] ++
    tree.fields.items.map MemberTree.facts ++ tree.methods.items.map MemberTree.facts ++
      [tree.attributes.facts AttributeTree.facts, .mentioning ofConstants])

def record (tree : ClassTree constants) (ofConstants : List Mention) : ClassRecord :=
  .ofReferences (Text.replaceChar '/' '.' tree.thisClass.name.text)
    (tree.facts ofConstants).sourceFile (isAbstractAccess tree.access)
    ((tree.facts ofConstants).mentions.flatMap (·.packages))

end ClassTree

end Classes

/-- A class file whose constants are all read and refer to one another as they must. -/
structure FileTree where
  minor : UInt16
  major : UInt16
  count : UInt16
  constants : List Constant
  fits : ∀ constant ∈ constants, constant.Fits
  declares : Declares count.toNat constants
  met : ∀ number position index expected,
    ConstantPool.ReferenceAt constants number position index expected →
      ConstantPool.Met constants index expected
  body : ClassTree constants

namespace FileTree

def pool (file : FileTree) : ConstantPool := .declaring file.count.toNat file.constants

def encode (file : FileTree) : List UInt8 :=
  encode32 0xCAFEBABE ++ (encode16 file.minor ++ (encode16 file.major ++
    ((encode16 file.count ++ file.constants.flatMap Constant.encode) ++ file.body.encode)))

end FileTree

end PackageAudit.ClassFile
