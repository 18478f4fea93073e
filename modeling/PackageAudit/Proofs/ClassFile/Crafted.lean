import PackageAudit.Proofs.ClassFile.Meaning
/-!
The class files that can be built, with what was asked for.

A class file is built by calls in any order; attributes may be written long before they are attached,
to several members or to none. Beside the class file runs an outline of what the calls asked for: the
access flags, the types that the calls for constants mentioned, and the contents attached. A run of
the steps that a class file is described by is such a sequence of calls.
-/

namespace PackageAudit.ClassFile

/-- What the calls asked for. -/
structure Outline where
  access : UInt16 := 0x0021
  /-- The types mentioned by class constants and by the descriptors of other constants. -/
  created : List Mention
  fields : List Content := []
  methods : List Content := []
  attributes : List Content := []

namespace Outline

/-- Public, concrete and under the root of all classes. -/
def ofName (name : String) : Outline where
  created := [.className name, .className "java/lang/Object"]

def create (outline : Outline) (mentions : List Mention) : Outline :=
  { outline with created := outline.created ++ mentions }

def addField (outline : Outline) (content : Content) : Outline :=
  { outline with fields := outline.fields ++ [content] }

def addMethod (outline : Outline) (content : Content) : Outline :=
  { outline with methods := outline.methods ++ [content] }

def attach (outline : Outline) (content : Content) : Outline :=
  { outline with attributes := outline.attributes ++ [content] }

/-- Everything attached, in the order of the file. -/
def content (outline : Outline) : Content :=
  .join (outline.fields ++ outline.methods ++ outline.attributes)

@[simp] theorem create_nil (outline : Outline) : outline.create [] = outline := by
  rw [create, List.append_nil]

theorem create_create (outline : Outline) (first second : List Mention) :
    (outline.create first).create second = outline.create (first ++ second) := by
  simp only [create, List.append_assoc]

end Outline

namespace BuildStep

/-- The steps that write no attributes and nothing malformed. -/
def Plain : BuildStep → Prop
  | .text value | .classRef value | .methodType value | .extend value | .implement value =>
    FitsText value
  | .nameAndType name descriptor => FitsText name ∧ FitsText descriptor
  | .methodRef owner name descriptor => FitsText owner ∧ FitsText name ∧ FitsText descriptor
  | .integer _ | .long _ _ | .access _ => True
  | .superClassIndex index => index = 0
  | _ => False

/-- The types that a step has its constants mention. -/
def created : BuildStep → List Mention
  | .classRef name | .extend name | .implement name => [.className name]
  | .nameAndType _ descriptor | .methodType descriptor => [.typeText descriptor]
  | .methodRef owner _ descriptor => [.className owner, .typeText descriptor]
  | .field _ _ specs | .method _ _ specs => AttributeSpec.createdOfSpecs specs
  | .addAttribute spec => spec.created
  | _ => []

def outlined (outline : Outline) : BuildStep → Outline
  | .access flags => { outline with access := flags }
  | .field name descriptor specs =>
    (outline.create (created (.field name descriptor specs))).addField
      (memberContent descriptor (AttributeSpec.contentsOfSpecs specs))
  | .method name descriptor specs =>
    (outline.create (created (.method name descriptor specs))).addMethod
      (memberContent descriptor (AttributeSpec.contentsOfSpecs specs))
  | .addAttribute spec => (outline.create spec.created).attach spec.content
  | step => outline.create step.created

end BuildStep

namespace Written

def ofSpec (spec : AttributeSpec) (bytes : List UInt8) : Written :=
  ⟨bytes, spec.content, spec.bodies⟩

def ofCode (handlers : List (Option String)) (nested : List Written) (bytes : List UInt8) :
    Written :=
  ⟨bytes, codeContent handlers (nested.map (·.content)), bodiesOf nested + 1⟩

end Written

open ClassBuilder

/-- The class files that calls can build, with the attributes written so far and an outline. -/
inductive Crafted (name : String) : ClassBuilder → List Written → Outline → Prop
  | start (fits : FitsText name) : Crafted name (.ofName name) [] (.ofName name)
  | step {builder : ClassBuilder} {written : List Written} {outline : Outline}
      (earlier : Crafted name builder written outline) (step : BuildStep) (plain : step.Plain) :
      Crafted name (step.run builder).2 written (step.outlined outline)
  | describe {builder : ClassBuilder} {written : List Written} {outline : Outline}
      (earlier : Crafted name builder written outline) (spec : AttributeSpec) (fits : spec.Fits)
      (small : (prepare (Build.attributeOf spec) builder).1.length ≤ maxAttributeLength) :
      Crafted name (prepare (Build.attributeOf spec) builder).2
        (.ofSpec spec (prepare (Build.attributeOf spec) builder).1 :: written)
        (outline.create spec.created)
  | code {builder : ClassBuilder} {written : List Written} {outline : Outline}
      (earlier : Crafted name builder written outline) (handlers : List (Option String))
      (nested : List Written) (fewHandlers : handlers.length ≤ 65535)
      (fits : ∀ caught ∈ handlers, ∀ name ∈ caught, FitsText name)
      (few : nested.length ≤ 65535) (known : nested ⊆ written)
      (small : (prepare (Build.code handlers (nested.map (·.bytes))) builder).1.length ≤
        maxAttributeLength) :
      Crafted name (prepare (Build.code handlers (nested.map (·.bytes))) builder).2
        (.ofCode handlers nested (prepare (Build.code handlers (nested.map (·.bytes))) builder).1 ::
          written)
        (outline.create (handlers.flatMap classMention))
  | field {builder : ClassBuilder} {written : List Written} {outline : Outline}
      (earlier : Crafted name builder written outline) (field descriptor : String)
      (attributes : List Written) (fits : FitsText field ∧ FitsText descriptor)
      (few : attributes.length ≤ 65535) (known : attributes ⊆ written)
      (shallow : Written.bodiesOf attributes ≤ maxLevels) :
      Crafted name (ClassBuilder.field field descriptor (attributes.map (·.bytes)) builder).2 written
        (outline.addField (memberContent descriptor (attributes.map (·.content))))
  | method {builder : ClassBuilder} {written : List Written} {outline : Outline}
      (earlier : Crafted name builder written outline) (method descriptor : String)
      (attributes : List Written) (fits : FitsText method ∧ FitsText descriptor)
      (few : attributes.length ≤ 65535) (known : attributes ⊆ written)
      (shallow : Written.bodiesOf attributes ≤ maxLevels) :
      Crafted name (ClassBuilder.method method descriptor (attributes.map (·.bytes)) builder).2
        written (outline.addMethod (memberContent descriptor (attributes.map (·.content))))
  | attach {builder : ClassBuilder} {written : List Written} {outline : Outline}
      (earlier : Crafted name builder written outline) (attached : Written)
      (known : attached ∈ written) (shallow : attached.bodies ≤ maxLevels) :
      Crafted name (builder.attach attached.bytes) written (outline.attach attached.content)

/-! ### Runs of steps -/

namespace BuildStep

/-- The step attaches nothing that nests too deep. -/
def Shallow : BuildStep → Prop
  | .field _ _ specs | .method _ _ specs => ∀ spec ∈ specs, spec.Shallow
  | .addAttribute spec => spec.Shallow
  | _ => True

/-- Attributes that a field or method can hold if they are written here, were it not for their depth. -/
def SpecsFieldsFitIn (builder : ClassBuilder) (specs : List AttributeSpec) : Prop :=
  specs.length ≤ 65535 ∧ AttributeSpec.SpecsFieldsFit specs ∧
    ∀ bytes ∈ (prepare (Build.attributesOf specs) builder).1, bytes.length ≤ maxAttributeLength

def FieldsFitIn (builder : ClassBuilder) : BuildStep → Prop
  | .field name descriptor specs | .method name descriptor specs =>
    (FitsText name ∧ FitsText descriptor) ∧ SpecsFieldsFitIn builder specs
  | .addAttribute spec =>
    spec.FieldsFit ∧ (prepare (Build.attributeOf spec) builder).1.length ≤ maxAttributeLength
  | step => step.Plain

/-- Each of the steps fits where those before it lead, however deep it nests. -/
def FieldsFitInOrder (builder : ClassBuilder) : List BuildStep → Prop
  | [] => True
  | step :: rest => step.FieldsFitIn builder ∧ FieldsFitInOrder (step.run builder).2 rest

end BuildStep

section Runs

variable {name : String} {builder : ClassBuilder} {written : List Written} {outline : Outline}

/-- Attributes written in sequence can be attached afterwards, as can those written before. -/
theorem Crafted.describeAll (crafted : Crafted name builder written outline)
    (specs : List AttributeSpec) (fits : AttributeSpec.SpecsFieldsFit specs)
    (shallow : AttributeSpec.SpecsShallow specs)
    (small : ∀ bytes ∈ (prepare (Build.attributesOf specs) builder).1,
      bytes.length ≤ maxAttributeLength) :
    ∃ attributes known, Crafted name (prepare (Build.attributesOf specs) builder).2 known
        (outline.create (AttributeSpec.createdOfSpecs specs)) ∧
      attributes ++ written ⊆ known ∧
      attributes.map (·.bytes) = (prepare (Build.attributesOf specs) builder).1 ∧
      attributes.map (·.content) = AttributeSpec.contentsOfSpecs specs ∧
      Written.bodiesOf attributes = AttributeSpec.bodiesOfSpecs specs := by
  induction specs generalizing builder written outline with
  | nil =>
    refine ⟨[], written, ?_, List.Subset.refl _, rfl, rfl, rfl⟩
    rw [AttributeSpec.createdOfSpecs, Outline.create_nil]
    exact crafted
  | cons spec rest ih =>
    obtain ⟨smallFirst, smallRest⟩ := List.forall_mem_cons.mp small
    obtain ⟨attributes, known, later, within, bytes, contents, bodies⟩ :=
      ih (crafted.describe spec ⟨fits.1, shallow.1⟩ smallFirst) fits.2 shallow.2 smallRest
    refine ⟨.ofSpec spec (prepare (Build.attributeOf spec) builder).1 :: attributes, known, ?_, ?_,
      ?_, ?_, ?_⟩
    · rw [Outline.create_create] at later
      exact later
    · exact fun one member => within (List.perm_middle.mem_iff.mpr member)
    · rw [List.map_cons, bytes]
      rfl
    · rw [List.map_cons, contents]
      rfl
    · exact congrArg (max spec.bodies) bodies

private theorem Crafted.describeWithin (crafted : Crafted name builder written outline)
    {specs : List AttributeSpec} (fits : BuildStep.SpecsFieldsFitIn builder specs)
    (shallow : ∀ spec ∈ specs, spec.Shallow) :
    ∃ attributes known, Crafted name (prepare (Build.attributesOf specs) builder).2 known
        (outline.create (AttributeSpec.createdOfSpecs specs)) ∧
      attributes ⊆ known ∧ attributes.length ≤ 65535 ∧ Written.bodiesOf attributes ≤ maxLevels ∧
      attributes.map (·.bytes) = (prepare (Build.attributesOf specs) builder).1 ∧
      attributes.map (·.content) = AttributeSpec.contentsOfSpecs specs := by
  obtain ⟨few, fitsSpecs, small⟩ := fits
  obtain ⟨values, most⟩ := (AttributeSpec.forall_shallow_iff specs).mp shallow
  obtain ⟨attributes, known, later, within, bytes, contents, bodies⟩ :=
    crafted.describeAll specs fitsSpecs values small
  have count : attributes.length = specs.length := by
    rw [← List.length_map (·.content), contents, AttributeSpec.length_contentsOfSpecs]
  exact ⟨attributes, known, later, fun _ member => within (List.mem_append_left _ member),
    count ▸ few, bodies ▸ most, bytes, contents⟩

theorem Crafted.run (crafted : Crafted name builder written outline) (step : BuildStep)
    (fits : step.FieldsFitIn builder) (shallow : step.Shallow) :
    ∃ known, Crafted name (step.run builder).2 known (step.outlined outline) := by
  cases step with
  | field field descriptor specs =>
    obtain ⟨attributes, known, later, within, few, most, bytes, contents⟩ :=
      crafted.describeWithin fits.2 shallow
    have added := later.field field descriptor attributes fits.1 few within most
    rw [bytes, contents] at added
    exact ⟨known, added⟩
  | method method descriptor specs =>
    obtain ⟨attributes, known, later, within, few, most, bytes, contents⟩ :=
      crafted.describeWithin fits.2 shallow
    have added := later.method method descriptor attributes fits.1 few within most
    rw [bytes, contents] at added
    exact ⟨known, added⟩
  | addAttribute spec =>
    obtain ⟨fitsSpec, small⟩ := fits
    have described := crafted.describe spec ⟨fitsSpec, shallow.1⟩ small
    exact ⟨_, described.attach _ List.mem_cons_self shallow.2⟩
  | _ => exact ⟨written, crafted.step _ fits⟩

/-- What steps lead to that fit and nest nothing too deep is a class file that calls can build, as the steps
outline it. -/
theorem Crafted.runAll (crafted : Crafted name builder written outline) (steps : List BuildStep)
    (fit : BuildStep.FieldsFitInOrder builder steps) (shallow : ∀ step ∈ steps, step.Shallow) :
    ∃ known, Crafted name ((steps.mapM BuildStep.run).run builder).2 known
      (steps.foldl BuildStep.outlined outline) := by
  induction steps generalizing builder written outline with
  | nil => exact ⟨written, crafted⟩
  | cons step rest ih =>
    obtain ⟨shallowFirst, shallowRest⟩ := List.forall_mem_cons.mp shallow
    obtain ⟨known, later⟩ := crafted.run step fit.1 shallowFirst
    -- The answers of the steps play no part in what they lead to.
    rw [List.mapM_cons]
    exact ih later fit.2 shallowRest

end Runs

end PackageAudit.ClassFile
