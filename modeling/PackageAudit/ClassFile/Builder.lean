import PackageAudit.ClassFile.Encode
/-!
Writing class files.

A class file is built by steps that may each add constants to its pool. Texts and classes are looked
up by their text and added once, all other constants are added anew; an attribute adds the constants
of its payload first and its own name last. Some steps write numbers as they are given, so that
malformed files can be built as well.
-/

namespace PackageAudit.ClassFile

inductive ElementValue where
  | int (bits : UInt32)
  | string (text : String)
  | enumConstant (descriptor name : String)
  | classLiteral (descriptor : String)
  | annotated (descriptor : String) (elements : List (String × ElementValue))
  | array (values : List ElementValue)
  /-- A tag with nothing behind it. -/
  | rawTag (tag : UInt8)

structure AnnotationSpec where
  descriptor : String
  elements : List (String × ElementValue)

inductive AttributeSpec where
  | raw (name : String) (payload : List UInt8)
  | sourceFile (file : String)
  | signature (text : String)
  | exceptions (classes : List String)
  /-- Inner classes, each with its outer class if it has one. -/
  | innerClasses (entries : List (String × Option String))
  | enclosingMethod (owner : String) (method : Option (String × String))
  | annotations (visible : Bool) (annotations : List AnnotationSpec)
  | parameterAnnotations (parameters : List (List AnnotationSpec))
  | annotationDefault (value : ElementValue)
  /-- A method body; a handler without a class catches everything. -/
  | code (handlers : List (Option String)) (nested : List AttributeSpec)
  | localVariables (rows : List (String × String))
  | localVariableTypes (rows : List (String × String))

/-- The constant pool of a class file that is being built. -/
structure PoolBuilder where
  bytes : List UInt8 := []
  /-- The first slot not yet taken; slots that do not fit in a number are cut as they are written. -/
  nextSlot : Nat := 1
  /-- The slots of the texts added so far. -/
  texts : List (String × UInt16) := []
  classes : List (String × UInt16) := []

structure ClassBuilder where
  magic : UInt32 := 0xCAFEBABE
  pool : PoolBuilder := {}
  access : UInt16 := 0x0021
  thisClass : UInt16 := 0
  superClass : UInt16 := 0
  interfaces : List UInt16 := []
  fields : List (List UInt8) := []
  methods : List (List UInt8) := []
  attributes : List (List UInt8) := []

/-- Writing what refers to constants, which are added to the pool on the way. -/
abbrev Build := StateM PoolBuilder

namespace Build

/-- Adds the bytes of a constant that counts for some slots, and answers its first slot. -/
def addBytes (bytes : List UInt8) (slots : Nat) : Build UInt16 :=
  modifyGet fun pool =>
    (.ofNat pool.nextSlot,
      { pool with bytes := pool.bytes ++ bytes, nextSlot := pool.nextSlot + slots })

def add (constant : Constant) : Build UInt16 := addBytes constant.encode constant.slotCount

def text (text : String) : Build UInt16 := do
  match (← get).texts.lookup text with
  | some slot => return slot
  | none =>
    let slot ← add (.utf8 (Text.utf8 text))
    modify fun pool => { pool with texts := (text, slot) :: pool.texts }
    return slot

def classRef (name : String) : Build UInt16 := do
  match (← get).classes.lookup name with
  | some slot => return slot
  | none =>
    let nameSlot ← text name
    let slot ← add (.classRef nameSlot)
    modify fun pool => { pool with classes := (name, slot) :: pool.classes }
    return slot

/-- The slot of a class, or zero for none. -/
def classRefOrZero : Option String → Build UInt16
  | some name => classRef name
  | none => return 0

def nameAndType (name descriptor : String) : Build UInt16 := do
  let nameSlot ← text name
  let descriptorSlot ← text descriptor
  add (.nameAndType nameSlot descriptorSlot)

def methodRef (owner name descriptor : String) : Build UInt16 := do
  let ownerSlot ← classRef owner
  let memberSlot ← nameAndType name descriptor
  add (.methodRef ownerSlot memberSlot)

def methodType (descriptor : String) : Build UInt16 := do
  let slot ← text descriptor
  add (.methodType slot)

mutual

def elementValue : ElementValue → Build (List UInt8)
  | .int bits => do
    let slot ← add (.integer bits)
    return .ofNat 'I'.toNat :: encode16 slot
  | .string value => do
    let slot ← text value
    return .ofNat 's'.toNat :: encode16 slot
  | .enumConstant descriptor name => do
    let descriptorSlot ← text descriptor
    let nameSlot ← text name
    return .ofNat 'e'.toNat :: encode16 descriptorSlot ++ encode16 nameSlot
  | .classLiteral descriptor => do
    let slot ← text descriptor
    return .ofNat 'c'.toNat :: encode16 slot
  | .annotated descriptor elements => do
    let slot ← text descriptor
    let parts ← elementPairs elements
    return .ofNat '@'.toNat :: encode16 slot ++ encodeTable parts
  | .array values => do
    let parts ← elementValues values
    return .ofNat '['.toNat :: encodeTable parts
  | .rawTag tag => return [tag]

def elementValues : List ElementValue → Build (List (List UInt8))
  | [] => return []
  | value :: rest => do
    let bytes ← elementValue value
    return bytes :: (← elementValues rest)

def elementPairs : List (String × ElementValue) → Build (List (List UInt8))
  | [] => return []
  | (name, value) :: rest => do
    let slot ← text name
    let bytes ← elementValue value
    return (encode16 slot ++ bytes) :: (← elementPairs rest)

end

def annotationBytes (spec : AnnotationSpec) : Build (List UInt8) := do
  let slot ← text spec.descriptor
  let parts ← elementPairs spec.elements
  return encode16 slot ++ encodeTable parts

def annotations (list : List AnnotationSpec) : Build (List UInt8) := do
  return encodeTable (← list.mapM annotationBytes)

/-- An attribute of a name, which is added to the pool, with a payload. -/
def named (name : String) (payload : List UInt8) : Build (List UInt8) := do
  let slot ← text name
  return encode16 slot ++ bytes32 payload.length ++ payload

def innerClass (entry : String × Option String) : Build (List UInt8) := do
  let inner ← classRef entry.1
  let outer ← classRefOrZero entry.2
  return encode16 inner ++ encode16 outer ++ bytes16 0 ++ bytes16 1

def handler (caught : Option String) : Build (List UInt8) := do
  let slot ← classRefOrZero caught
  return bytes16 0 ++ bytes16 1 ++ bytes16 0 ++ encode16 slot

/-- Rows of local variables, which take the slots of the frame in order. -/
def localRows (number : Nat) : List (String × String) → Build (List (List UInt8))
  | [] => return []
  | (name, descriptor) :: rest => do
    let nameSlot ← text name
    let descriptorSlot ← text descriptor
    let row := bytes16 0 ++ bytes16 1 ++ encode16 nameSlot ++ encode16 descriptorSlot ++
      bytes16 number
    return row :: (← localRows (number + 1) rest)

/-- A method body around attributes already written. -/
def code (handlers : List (Option String)) (nested : List (List UInt8)) : Build (List UInt8) := do
  let rows ← handlers.mapM handler
  named "Code" (bytes16 1 ++ bytes16 1 ++ bytes32 1 ++ [0xB1] ++ encodeTable rows ++
    encodeTable nested)

mutual

def attributeOf : AttributeSpec → Build (List UInt8)
  | .raw name payload => named name payload
  | .sourceFile file => do
    let slot ← text file
    named "SourceFile" (encode16 slot)
  | .signature value => do
    let slot ← text value
    named "Signature" (encode16 slot)
  | .exceptions classes => do
    let slots ← classes.mapM classRef
    named "Exceptions" (encodeTable (slots.map encode16))
  | .innerClasses entries => do
    let rows ← entries.mapM innerClass
    named "InnerClasses" (encodeTable rows)
  | .enclosingMethod owner method => do
    let ownerSlot ← classRef owner
    let methodSlot ← match method with
      | some (name, descriptor) => nameAndType name descriptor
      | none => pure 0
    named "EnclosingMethod" (encode16 ownerSlot ++ encode16 methodSlot)
  | .annotations visible list => do
    let payload ← annotations list
    named (if visible then "RuntimeVisibleAnnotations" else "RuntimeInvisibleAnnotations") payload
  | .parameterAnnotations parameters => do
    let parts ← parameters.mapM annotations
    named "RuntimeVisibleParameterAnnotations" (.ofNat parameters.length :: parts.flatten)
  | .annotationDefault value => do
    let payload ← elementValue value
    named "AnnotationDefault" payload
  | .code handlers nested => do
    code handlers (← attributesOf nested)
  | .localVariables rows => do
    named "LocalVariableTable" (encodeTable (← localRows 0 rows))
  | .localVariableTypes rows => do
    named "LocalVariableTypeTable" (encodeTable (← localRows 0 rows))

def attributesOf : List AttributeSpec → Build (List (List UInt8))
  | [] => return []
  | spec :: rest => do
    let bytes ← attributeOf spec
    return bytes :: (← attributesOf rest)

end

/-- A public field or method with attributes already written. -/
def member (name descriptor : String) (attributes : List (List UInt8)) : Build (List UInt8) := do
  let nameSlot ← text name
  let descriptorSlot ← text descriptor
  return bytes16 1 ++ encode16 nameSlot ++ encode16 descriptorSlot ++ encodeTable attributes

end Build

inductive BuildStep where
  | text (text : String)
  | classRef (name : String)
  /-- A class constant that names a given slot. -/
  | classEntry (index : UInt16)
  | nameAndType (name descriptor : String)
  | methodRef (owner name descriptor : String)
  | methodType (descriptor : String)
  | integer (bits : UInt32)
  | long (high low : UInt32)
  /-- Bytes that count as one slot. -/
  | rawConstant (bytes : List UInt8)
  | magic (value : UInt32)
  | access (flags : UInt16)
  | extend (name : String)
  | superClassIndex (index : UInt16)
  | implement (name : String)
  | field (name descriptor : String) (attributes : List AttributeSpec)
  | method (name descriptor : String) (attributes : List AttributeSpec)
  | addAttribute (spec : AttributeSpec)

namespace ClassBuilder

/-- A public concrete class that extends the root of all classes. -/
def ofName (name : String) : ClassBuilder :=
  let (thisClass, pool) := (Build.classRef name).run {}
  let (superClass, pool) := (Build.classRef "java/lang/Object").run pool
  { pool, thisClass, superClass }

/-- Writes something with the pool of a class file, then changes the class file by it. -/
def write {α : Type} (part : Build α) (change : α → ClassBuilder → ClassBuilder) :
    StateM ClassBuilder α :=
  modifyGet fun builder =>
    let (value, pool) := part.run builder.pool
    (value, change value { builder with pool })

/-- Writes something that is not part of the class file yet, and answers it. -/
def prepare {α : Type} (part : Build α) : StateM ClassBuilder α := write part fun _ builder => builder

def extend (name : String) : StateM ClassBuilder UInt16 :=
  write (Build.classRef name) fun slot builder => { builder with superClass := slot }

def implement (name : String) : StateM ClassBuilder UInt16 :=
  write (Build.classRef name) fun slot builder =>
    { builder with interfaces := builder.interfaces ++ [slot] }

/-- Adds a field with attributes already written. -/
def field (name descriptor : String) (attributes : List (List UInt8)) :
    StateM ClassBuilder (List UInt8) :=
  write (Build.member name descriptor attributes) fun bytes builder =>
    { builder with fields := builder.fields ++ [bytes] }

def method (name descriptor : String) (attributes : List (List UInt8)) :
    StateM ClassBuilder (List UInt8) :=
  write (Build.member name descriptor attributes) fun bytes builder =>
    { builder with methods := builder.methods ++ [bytes] }

/-- Adds an attribute already written to the class itself. -/
def attach (bytes : List UInt8) (builder : ClassBuilder) : ClassBuilder :=
  { builder with attributes := builder.attributes ++ [bytes] }

def build (builder : ClassBuilder) : List UInt8 :=
  encode32 builder.magic ++ bytes16 0 ++ bytes16 52 ++ bytes16 builder.pool.nextSlot ++
    builder.pool.bytes ++ encode16 builder.access ++ encode16 builder.thisClass ++
    encode16 builder.superClass ++ encodeTable (builder.interfaces.map encode16) ++
    encodeTable builder.fields ++ encodeTable builder.methods ++ encodeTable builder.attributes

end ClassBuilder

namespace BuildStep

def asInterface : BuildStep := .access 0x0601

def asAbstractClass : BuildStep := .access 0x0421

/-- Runs a step; those that add a constant answer its slot. -/
def run : BuildStep → StateM ClassBuilder (Option UInt16)
  | .text value => some <$> ClassBuilder.prepare (Build.text value)
  | .classRef name => some <$> ClassBuilder.prepare (Build.classRef name)
  | .classEntry index => some <$> ClassBuilder.prepare (Build.add (.classRef index))
  | .nameAndType name descriptor =>
    some <$> ClassBuilder.prepare (Build.nameAndType name descriptor)
  | .methodRef owner name descriptor =>
    some <$> ClassBuilder.prepare (Build.methodRef owner name descriptor)
  | .methodType descriptor => some <$> ClassBuilder.prepare (Build.methodType descriptor)
  | .integer bits => some <$> ClassBuilder.prepare (Build.add (.integer bits))
  | .long high low => some <$> ClassBuilder.prepare (Build.add (.long high low))
  | .rawConstant bytes => some <$> ClassBuilder.prepare (Build.addBytes bytes 1)
  | .magic value => silently fun builder => { builder with magic := value }
  | .access flags => silently fun builder => { builder with access := flags }
  | .extend name => do
    let _ ← ClassBuilder.extend name
    return none
  | .superClassIndex index => silently fun builder => { builder with superClass := index }
  | .implement name => do
    let _ ← ClassBuilder.implement name
    return none
  | .field name descriptor specs => do
    let attributes ← ClassBuilder.prepare (Build.attributesOf specs)
    let _ ← ClassBuilder.field name descriptor attributes
    return none
  | .method name descriptor specs => do
    let attributes ← ClassBuilder.prepare (Build.attributesOf specs)
    let _ ← ClassBuilder.method name descriptor attributes
    return none
  | .addAttribute spec => do
    let _ ← ClassBuilder.write (Build.attributeOf spec) ClassBuilder.attach
    return none
where
  silently (change : ClassBuilder → ClassBuilder) : StateM ClassBuilder (Option UInt16) := do
    modify change
    return none

end BuildStep

end PackageAudit.ClassFile
