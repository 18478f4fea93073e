import PackageAudit.ClassFile.Attribute
import PackageAudit.ClassFile.Builder
/-!
What the parts of a class file say that can be written.

The types an attribute mentions and the source files it names are read off its description alone, in
the order of its parts. A description fits when all its texts and counts fit into their fields and no
element value is nested too deep; the length of a payload is known only once it is written.
-/

namespace PackageAudit.ClassFile

/-- The types mentioned and the source files named by some part of a class file, in file order. -/
structure Content where
  mentions : List Mention := []
  sourceFiles : List String := []

namespace Content

def mentioning (mentions : List Mention) : Content := { mentions }

def append (earlier later : Content) : Content where
  mentions := earlier.mentions ++ later.mentions
  sourceFiles := earlier.sourceFiles ++ later.sourceFiles

def join (parts : List Content) : Content where
  mentions := parts.flatMap (·.mentions)
  sourceFiles := parts.flatMap (·.sourceFiles)

/-- What reading finds of a content: of several source files the last. -/
def facts (content : Content) : Facts where
  mentions := content.mentions
  sourceFile := content.sourceFiles.getLast?

theorem facts_append (earlier later : Content) :
    (earlier.append later).facts = earlier.facts.append later.facts := by
  simp only [facts, append, Facts.append, List.getLast?_append, Option.orElse_eq_orElse,
    Option.orElse_eq_or]

theorem facts_join (parts : List Content) : (join parts).facts = .concat (parts.map facts) := by
  induction parts with
  | nil => rfl
  | cons part parts ih =>
    have split : join (part :: parts) = part.append (join parts) := rfl
    rw [split, facts_append, ih]
    rfl

end Content

def FitsText (text : String) : Prop := (Text.utf8 text).length ≤ 65535

instance (text : String) : Decidable (FitsText text) :=
  inferInstanceAs (Decidable (_ ≤ _))

/-! ### Element values -/

namespace ElementValue

mutual

/-- How many element values enclose one another, the outermost included. -/
def levels : ElementValue → Nat
  | .annotated _ elements => levelsOfElements elements + 1
  | .array values => levelsOfValues values + 1
  | _ => 1

def levelsOfValues : List ElementValue → Nat
  | [] => 0
  | value :: rest => max value.levels (levelsOfValues rest)

def levelsOfElements : List (String × ElementValue) → Nat
  | [] => 0
  | (_, value) :: rest => max value.levels (levelsOfElements rest)

end

mutual

def mentions : ElementValue → List Mention
  | .enumConstant descriptor _ | .classLiteral descriptor => [.typeText descriptor]
  | .annotated descriptor elements => .typeText descriptor :: (mentionsOfElements elements).flatten
  | .array values => (mentionsOfValues values).flatten
  | .int _ | .string _ | .rawTag _ => []

def mentionsOfValues : List ElementValue → List (List Mention)
  | [] => []
  | value :: rest => value.mentions :: mentionsOfValues rest

def mentionsOfElements : List (String × ElementValue) → List (List Mention)
  | [] => []
  | (_, value) :: rest => value.mentions :: mentionsOfElements rest

end

theorem length_mentionsOfValues (values : List ElementValue) :
    (mentionsOfValues values).length = values.length := by
  induction values with
  | nil => rfl
  | cons value rest ih => rw [mentionsOfValues, List.length_cons, List.length_cons, ih]

theorem length_mentionsOfElements (elements : List (String × ElementValue)) :
    (mentionsOfElements elements).length = elements.length := by
  induction elements with
  | nil => rfl
  | cons element rest ih => rw [mentionsOfElements, List.length_cons, List.length_cons, ih]

mutual

/-- A tag with nothing behind it fits nowhere. -/
def Fits : ElementValue → Prop
  | .int _ => True
  | .string text | .classLiteral text => FitsText text
  | .enumConstant descriptor name => FitsText descriptor ∧ FitsText name
  | .annotated descriptor elements =>
    FitsText descriptor ∧ elements.length ≤ 65535 ∧ ElementsFit elements
  | .array values => values.length ≤ 65535 ∧ ValuesFit values
  | .rawTag _ => False

def ValuesFit : List ElementValue → Prop
  | [] => True
  | value :: rest => value.Fits ∧ ValuesFit rest

def ElementsFit : List (String × ElementValue) → Prop
  | [] => True
  | (name, value) :: rest => FitsText name ∧ value.Fits ∧ ElementsFit rest

end

end ElementValue

namespace AnnotationSpec

def mentions (spec : AnnotationSpec) : List Mention :=
  .typeText spec.descriptor :: (ElementValue.mentionsOfElements spec.elements).flatten

/-- All texts and counts fit, however deep the values are nested. -/
def FieldsFit (spec : AnnotationSpec) : Prop :=
  FitsText spec.descriptor ∧ spec.elements.length ≤ 65535 ∧ ElementValue.ElementsFit spec.elements

def Shallow (spec : AnnotationSpec) : Prop :=
  ElementValue.levelsOfElements spec.elements ≤ maxLevels

end AnnotationSpec

/-! ### Attributes -/

def classMention : Option String → List Mention
  | some name => [.className name]
  | none => []

/-- The names of the attributes that are not passed over. -/
def recognizedNames : List String :=
  ["SourceFile", "Signature", "Exceptions", "InnerClasses", "EnclosingMethod",
    "RuntimeVisibleAnnotations", "RuntimeInvisibleAnnotations",
    "RuntimeVisibleParameterAnnotations", "RuntimeInvisibleParameterAnnotations",
    "AnnotationDefault", "Code", "LocalVariableTable", "LocalVariableTypeTable"]

/-- What a method body says, its attributes included. -/
def codeContent (handlers : List (Option String)) (nested : List Content) : Content :=
  (Content.mentioning (handlers.flatMap classMention)).append (.join nested)

/-- What a field or method says, its attributes included. -/
def memberContent (descriptor : String) (attributes : List Content) : Content :=
  (Content.mentioning [.typeText descriptor]).append (.join attributes)

namespace AttributeSpec

mutual

def content : AttributeSpec → Content
  | .sourceFile file => { sourceFiles := [file] }
  | .signature text => .mentioning [.typeText text]
  | .exceptions classes => .mentioning (classes.map .className)
  | .innerClasses entries =>
    .mentioning (entries.flatMap fun entry => .className entry.1 :: classMention entry.2)
  | .enclosingMethod owner none => .mentioning [.className owner]
  | .enclosingMethod owner (some method) =>
    .mentioning [.className owner, .typeText method.2]
  | .annotations _ list => .mentioning (list.flatMap (·.mentions))
  | .parameterAnnotations parameters =>
    .mentioning (parameters.flatMap fun list => list.flatMap (·.mentions))
  | .annotationDefault value => .mentioning value.mentions
  | .code handlers nested => codeContent handlers (contentsOfSpecs nested)
  | .localVariables rows | .localVariableTypes rows =>
    .mentioning (rows.map fun row => .typeText row.2)
  | .raw _ _ => {}

def contentsOfSpecs : List AttributeSpec → List Content
  | [] => []
  | spec :: rest => spec.content :: contentsOfSpecs rest

end

theorem length_contentsOfSpecs (specs : List AttributeSpec) :
    (contentsOfSpecs specs).length = specs.length := by
  induction specs with
  | nil => rfl
  | cons spec rest ih => rw [contentsOfSpecs, List.length_cons, List.length_cons, ih]

mutual

/-- The types mentioned by the class and descriptor constants that writing the attribute takes. -/
def created : AttributeSpec → List Mention
  | .exceptions classes => classes.map .className
  | .innerClasses entries =>
    entries.flatMap fun entry => .className entry.1 :: classMention entry.2
  | .enclosingMethod owner none => [.className owner]
  | .enclosingMethod owner (some method) => [.className owner, .typeText method.2]
  | .code handlers nested => createdOfSpecs nested ++ handlers.flatMap classMention
  | _ => []

def createdOfSpecs : List AttributeSpec → List Mention
  | [] => []
  | spec :: rest => spec.created ++ createdOfSpecs rest

end

mutual

/-- How many method bodies enclose one another in the attribute. -/
def bodies : AttributeSpec → Nat
  | .code _ nested => bodiesOfSpecs nested + 1
  | _ => 0

def bodiesOfSpecs : List AttributeSpec → Nat
  | [] => 0
  | spec :: rest => max spec.bodies (bodiesOfSpecs rest)

end

mutual

/-- All texts and counts fit, however deep the element values are nested. -/
def FieldsFit : AttributeSpec → Prop
  | .raw name _ => FitsText name ∧ name ∉ recognizedNames
  | .sourceFile text | .signature text => FitsText text
  | .exceptions classes => classes.length ≤ 65535 ∧ ∀ name ∈ classes, FitsText name
  | .innerClasses entries =>
    entries.length ≤ 65535 ∧
      ∀ entry ∈ entries, FitsText entry.1 ∧ ∀ outer ∈ entry.2, FitsText outer
  | .enclosingMethod owner method =>
    FitsText owner ∧ ∀ member ∈ method, FitsText member.1 ∧ FitsText member.2
  | .annotations _ list => list.length ≤ 65535 ∧ ∀ spec ∈ list, spec.FieldsFit
  | .parameterAnnotations parameters =>
    parameters.length ≤ 255 ∧
      ∀ list ∈ parameters, list.length ≤ 65535 ∧ ∀ spec ∈ list, spec.FieldsFit
  | .annotationDefault value => value.Fits
  | .code handlers nested =>
    handlers.length ≤ 65535 ∧ (∀ caught ∈ handlers, ∀ name ∈ caught, FitsText name) ∧
      nested.length ≤ 65535 ∧ SpecsFieldsFit nested
  | .localVariables rows | .localVariableTypes rows =>
    rows.length ≤ 65535 ∧ ∀ row ∈ rows, FitsText row.1 ∧ FitsText row.2

def SpecsFieldsFit : List AttributeSpec → Prop
  | [] => True
  | spec :: rest => spec.FieldsFit ∧ SpecsFieldsFit rest

end

mutual

/-- No element value in the attribute is nested too deep. -/
def ValuesShallow : AttributeSpec → Prop
  | .annotations _ list => ∀ spec ∈ list, spec.Shallow
  | .parameterAnnotations parameters => ∀ list ∈ parameters, ∀ spec ∈ list, spec.Shallow
  | .annotationDefault value => value.levels ≤ maxLevels
  | .code _ nested => SpecsShallow nested
  | _ => True

def SpecsShallow : List AttributeSpec → Prop
  | [] => True
  | spec :: rest => spec.ValuesShallow ∧ SpecsShallow rest

end

def Fits (spec : AttributeSpec) : Prop := spec.FieldsFit ∧ spec.ValuesShallow

/-- Neither element values nor method bodies are nested too deep in the attribute. -/
def Shallow (spec : AttributeSpec) : Prop := spec.ValuesShallow ∧ spec.bodies ≤ maxLevels

theorem forall_shallow_iff (specs : List AttributeSpec) :
    (∀ spec ∈ specs, spec.Shallow) ↔ SpecsShallow specs ∧ bodiesOfSpecs specs ≤ maxLevels := by
  induction specs with
  | nil => simp [SpecsShallow, bodiesOfSpecs]
  | cons spec rest ih =>
    rw [List.forall_mem_cons, ih, SpecsShallow, bodiesOfSpecs, Nat.max_le, Shallow, and_and_and_comm]

end AttributeSpec

/-- The longest attribute whose payload length fits its field, with its name and that length. -/
def maxAttributeLength : Nat := 4294967295 + 6

/-- An attribute as it was written, with what it says and how many method bodies enclose one another
in it. -/
structure Written where
  bytes : List UInt8
  content : Content
  bodies : Nat

namespace Written

def bodiesOf (attributes : List Written) : Nat :=
  attributes.foldr (fun written bodies => max written.bodies bodies) 0

end Written

end PackageAudit.ClassFile
