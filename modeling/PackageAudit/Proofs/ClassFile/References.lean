import Mathlib
import PackageAudit.Proofs.ClassFile.ReferencedPackages
/-!
The references of a class file.

The structures of a class file hold numbers of constants, and the format says for each of them what
must stand at the number. Reading looks up the numbers that lead to types and to the names of
attributes and of the source file, and these must lead to what they should. The names of members,
elements, variables and enum constants, and the values of elements, are passed over without a look
into the pool, so a file is read no matter where these numbers point.
-/

namespace PackageAudit.ClassFile

/-- The constants that may be the value of an element with a tag. -/
inductive Constant.IsValueOf : Char → Constant → Prop
  | integer {tag : Char} (small : tag ∈ ['B', 'C', 'I', 'S', 'Z']) (bits : UInt32) :
    IsValueOf tag (.integer bits)
  | float (bits : UInt32) : IsValueOf 'F' (.float bits)
  | long (high low : UInt32) : IsValueOf 'J' (.long high low)
  | double (high low : UInt32) : IsValueOf 'D' (.double high low)
  | text (bytes : List UInt8) : IsValueOf 's' (.utf8 bytes)

/-- A number held by a structure, with the constants that may stand there. -/
structure Reference where
  index : UInt16
  admits : Constant → Prop
  /-- Zero means that there is nothing to refer to. -/
  optional : Bool := false
  /-- Reading looks the number up. -/
  followed : Bool := true

/-- Leads to a constant that may stand there, or to nothing where that is allowed. -/
def Reference.Met (constants : List Constant) (reference : Reference) : Prop :=
  (reference.optional = true ∧ reference.index = 0) ∨
    ∃ target, StandsAt constants reference.index.toNat target ∧ reference.admits target

/-! ### The references of each structure -/

section Structures

variable {constants : List Constant}

/-- A text that reading takes no interest in. -/
def Reference.unreadText (index : UInt16) : Reference where
  index := index
  admits := Expected.utf8.Admits
  followed := false

def TextRef.reference (text : TextRef constants) : Reference where
  index := text.slot
  admits := Expected.utf8.Admits

def ClassRef.reference (reference : ClassRef constants) : Reference where
  index := reference.slot
  admits := Expected.classRef.Admits

def Reference.classIfAny (reference : Option (ClassRef constants)) : Reference where
  index := classSlot reference
  admits := Expected.classRef.Admits
  optional := true

def Reference.methodIfAny (reference : Option (MemberRef constants)) : Reference where
  index := reference.elim 0 (·.slot)
  admits := Expected.nameAndType.Admits
  optional := true

section Elements

variable {τ : Type}

def AnnotationOf.references (value : τ → List Reference) (tree : AnnotationOf constants τ) :
    List Reference :=
  tree.type.reference ::
    tree.elements.items.flatMap fun element => .unreadText element.1 :: value element.2

def ElementOf.references (value : τ → List Reference) : ElementOf constants τ → List Reference
  | .constant tag _ number =>
    [{ index := number, admits := Constant.IsValueOf (.ofNat tag.toNat), followed := false }]
  | .enumConstant type name => [type.reference, .unreadText name]
  | .classLiteral type => [type.reference]
  | .annotated inner => inner.references value
  | .array values => values.items.flatMap value

def ElementTree.references : (levels : Nat) → ElementTree constants levels → List Reference
  | 0 => Empty.elim
  | levels + 1 => ElementOf.references (references levels)

def AnnotationTree.references (tree : AnnotationTree constants) : List Reference :=
  AnnotationOf.references (ElementTree.references maxLevels) tree

end Elements

def InnerClassRow.references (row : InnerClassRow constants) : List Reference :=
  [.classIfAny row.inner, .classIfAny row.outer,
    { Reference.unreadText row.simpleName with optional := true }]

def EnclosingMethodRow.references (row : EnclosingMethodRow constants) : List Reference :=
  [row.owner.reference, .methodIfAny row.method]

def LocalVariableRow.references (row : LocalVariableRow constants) : List Reference :=
  [.unreadText row.name, row.type.reference]

def HandlerRow.references (row : HandlerRow constants) : List Reference :=
  [.classIfAny row.caught]

section Bodies

variable {β τ : Type} {kind : AttributeKind}

def Payload.references (body : β → List Reference) : Payload constants β kind → List Reference
  | .sourceFile file => [file.reference]
  | .signature type => [type.reference]
  | .exceptions classes => classes.items.map ClassRef.reference
  | .innerClasses rows => rows.items.flatMap InnerClassRow.references
  | .enclosingMethod row => row.references
  | .annotations list => list.items.flatMap AnnotationTree.references
  | .parameterAnnotations parameters _ =>
    parameters.flatMap fun list => list.items.flatMap AnnotationTree.references
  | .annotationDefault value => ElementTree.references maxLevels value
  | .code tree => body tree
  | .localVariables rows => rows.items.flatMap LocalVariableRow.references
  | .unrecognized => []

def AttributeOf.references {bodies : BodySyntax} (body : bodies.Tree → List Reference)
    (tree : AttributeOf constants bodies) : List Reference :=
  tree.name.reference :: tree.payload.references body

def CodeOf.references (item : τ → List Reference) (code : CodeOf constants τ) : List Reference :=
  code.handlers.items.flatMap HandlerRow.references ++ code.attributes.items.flatMap item

def bodyReferences : (levels : Nat) → (bodySyntax constants levels).Tree → List Reference
  | 0 => Empty.elim
  | levels + 1 => CodeOf.references (AttributeOf.references (bodyReferences levels))

end Bodies

def AttributeTree.references (tree : AttributeTree constants) : List Reference :=
  AttributeOf.references (bodyReferences maxLevels) tree

def MemberTree.references (member : MemberTree constants) : List Reference :=
  .unreadText member.name :: member.descriptor.reference ::
    member.attributes.items.flatMap AttributeTree.references

def ClassTree.references (tree : ClassTree constants) : List Reference :=
  tree.thisClass.reference :: .classIfAny tree.superclass ::
    (tree.interfaces.items.map ClassRef.reference ++
      tree.fields.items.flatMap MemberTree.references ++
      tree.methods.items.flatMap MemberTree.references ++
      tree.attributes.items.flatMap AttributeTree.references)

end Structures

/-- The references of all structures behind the constants. -/
def FileTree.references (file : FileTree) : List Reference := file.body.references

/-! ### References that are followed -/

/-- Those that reading looks up lead to what they should. -/
def FollowedMet (constants : List Constant) (references : List Reference) : Prop :=
  ∀ reference ∈ references, reference.followed = true → reference.Met constants

namespace FollowedMet

variable {constants : List Constant} {reference : Reference} {references others : List Reference}

theorem nil : FollowedMet constants [] := nofun

theorem cons (first : reference.followed = true → reference.Met constants)
    (behind : FollowedMet constants references) : FollowedMet constants (reference :: references) :=
  List.forall_mem_cons.mpr ⟨first, behind⟩

theorem unread (passed : reference.followed = false) (behind : FollowedMet constants references) :
    FollowedMet constants (reference :: references) :=
  .cons (fun followed => absurd (passed.symm.trans followed) Bool.false_ne_true) behind

theorem append (first : FollowedMet constants references)
    (second : FollowedMet constants others) : FollowedMet constants (references ++ others) :=
  List.forall_mem_append.mpr ⟨first, second⟩

theorem flatMap {τ : Type} {items : List τ} {within : τ → List Reference}
    (each : ∀ item, FollowedMet constants (within item)) :
    FollowedMet constants (items.flatMap within) := by
  intro reference member
  obtain ⟨item, _, inside⟩ := List.mem_flatMap.mp member
  exact each item reference inside

theorem map {τ : Type} {items : List τ} {make : τ → Reference}
    (each : ∀ item, (make item).Met constants) : FollowedMet constants (items.map make) := by
  intro reference member _
  obtain ⟨item, _, rfl⟩ := List.mem_map.mp member
  exact each item

end FollowedMet

section Structures

variable {constants : List Constant}

theorem TextRef.met (text : TextRef constants) : text.reference.Met constants := by
  obtain ⟨bytes, stands, _⟩ := text.stands
  exact .inr ⟨_, stands, .utf8 bytes⟩

theorem ClassRef.met (reference : ClassRef constants) : reference.reference.Met constants :=
  .inr ⟨_, reference.stands, .classRef _⟩

theorem Reference.Met.classIfAny (reference : Option (ClassRef constants)) :
    (Reference.classIfAny reference).Met constants := by
  cases reference with
  | none => exact .inl ⟨rfl, rfl⟩
  | some held => exact .inr ⟨_, held.stands, .classRef _⟩

theorem Reference.Met.methodIfAny (reference : Option (MemberRef constants)) :
    (Reference.methodIfAny reference).Met constants := by
  cases reference with
  | none => exact .inl ⟨rfl, rfl⟩
  | some held => exact .inr ⟨_, held.stands, .nameAndType _ _⟩

section Elements

variable {τ : Type} {value : τ → List Reference}
  (inner : ∀ tree, FollowedMet constants (value tree))
include inner

theorem AnnotationOf.followedMet (tree : AnnotationOf constants τ) :
    FollowedMet constants (tree.references value) :=
  .cons (fun _ => tree.type.met) (.flatMap fun element => .unread rfl (inner element.2))

theorem ElementOf.followedMet (tree : ElementOf constants τ) :
    FollowedMet constants (tree.references value) := by
  cases tree with
  | constant tag known number => exact .unread rfl .nil
  | enumConstant type name => exact .cons (fun _ => type.met) (.unread rfl .nil)
  | classLiteral type => exact .cons (fun _ => type.met) .nil
  | annotated annotation => exact annotation.followedMet inner
  | array values => exact .flatMap inner

end Elements

/-- By induction on the levels of the tree. -/
theorem ElementTree.followedMet (levels : Nat) (tree : ElementTree constants levels) :
    FollowedMet constants (ElementTree.references levels tree) := by
  induction levels with
  | zero => exact tree.elim
  | succ levels ih => exact ElementOf.followedMet ih tree

theorem AnnotationTree.followedMet (tree : AnnotationTree constants) :
    FollowedMet constants tree.references :=
  AnnotationOf.followedMet (ElementTree.followedMet maxLevels) tree

theorem Payload.followedMet {β : Type} {kind : AttributeKind} {body : β → List Reference}
    (inner : ∀ tree, FollowedMet constants (body tree)) (payload : Payload constants β kind) :
    FollowedMet constants (payload.references body) := by
  cases payload with
  | sourceFile file => exact .cons (fun _ => file.met) .nil
  | signature type => exact .cons (fun _ => type.met) .nil
  | exceptions classes => exact .map ClassRef.met
  | innerClasses rows =>
    exact .flatMap fun row => .cons (fun _ => .classIfAny row.inner)
      (.cons (fun _ => .classIfAny row.outer) (.unread rfl .nil))
  | enclosingMethod row =>
    exact .cons (fun _ => row.owner.met) (.cons (fun _ => .methodIfAny row.method) .nil)
  | annotations list => exact .flatMap AnnotationTree.followedMet
  | parameterAnnotations parameters few =>
    exact .flatMap fun list => .flatMap AnnotationTree.followedMet
  | annotationDefault value => exact ElementTree.followedMet maxLevels value
  | code tree => exact inner tree
  | localVariables rows =>
    exact .flatMap fun row => .unread rfl (.cons (fun _ => row.type.met) .nil)
  | unrecognized => exact .nil

theorem AttributeOf.followedMet {bodies : BodySyntax} {body : bodies.Tree → List Reference}
    (inner : ∀ tree, FollowedMet constants (body tree)) (tree : AttributeOf constants bodies) :
    FollowedMet constants (tree.references body) :=
  .cons (fun _ => tree.name.met) (tree.payload.followedMet inner)

theorem CodeOf.followedMet {τ : Type} {item : τ → List Reference}
    (inner : ∀ tree, FollowedMet constants (item tree)) (code : CodeOf constants τ) :
    FollowedMet constants (code.references item) :=
  .append (.flatMap fun row => .cons (fun _ => .classIfAny row.caught) .nil) (.flatMap inner)

/-- By induction on the method bodies that may enclose one another. -/
theorem bodyReferences_followedMet (levels : Nat) (tree : (bodySyntax constants levels).Tree) :
    FollowedMet constants (bodyReferences levels tree) := by
  induction levels with
  | zero => exact tree.elim
  | succ levels ih => exact CodeOf.followedMet (AttributeOf.followedMet ih) tree

theorem AttributeTree.followedMet (tree : AttributeTree constants) :
    FollowedMet constants tree.references :=
  AttributeOf.followedMet (bodyReferences_followedMet maxLevels) tree

theorem MemberTree.followedMet (member : MemberTree constants) :
    FollowedMet constants member.references :=
  .unread rfl (.cons (fun _ => member.descriptor.met) (.flatMap AttributeTree.followedMet))

theorem ClassTree.followedMet (tree : ClassTree constants) :
    FollowedMet constants tree.references :=
  .cons (fun _ => tree.thisClass.met) (.cons (fun _ => .classIfAny tree.superclass)
    (((FollowedMet.map ClassRef.met).append (.flatMap MemberTree.followedMet)).append
      (.flatMap MemberTree.followedMet) |>.append (.flatMap AttributeTree.followedMet)))

end Structures

/-- A file decodes if its structures refer to its constants as they must wherever reading looks. So
all its references lead to what they should exactly when those do that are passed over. -/
theorem decode_references (bytes : List UInt8) :
    ((∃ record, decode bytes = .ok record) ↔
      ∃ (file : FileTree) (rest : List UInt8), bytes = file.encode ++ rest) ∧
    ∀ (file : FileTree) (rest : List UInt8), bytes = file.encode ++ rest →
      (∀ reference ∈ file.references, reference.followed = true → reference.Met file.constants) ∧
      ((∀ reference ∈ file.references, reference.Met file.constants) ↔
        ∀ reference ∈ file.references, reference.followed = false →
          reference.Met file.constants) := by
  constructor
  · constructor
    · rintro ⟨record, decoded⟩
      obtain ⟨after, read⟩ := decode_eq_ok_iff.mp decoded
      obtain ⟨_, ⟨file, _, rfl, _, _⟩, split⟩ := readClass_recognizes.only read
      exact ⟨file, after.rest, split⟩
    · rintro ⟨file, rest, rfl⟩
      obtain ⟨found, mentioned, _⟩ := file.exists_mentions
      have read := readClass_recognizes.takes ⟨file, found, rfl, mentioned, rfl⟩ 0 rest
      exact ⟨_, decode_eq_ok_iff.mpr ⟨_, read⟩⟩
  · rintro file rest rfl
    have followed : FollowedMet file.constants file.references := file.body.followedMet
    refine ⟨followed, fun all reference member _ => all reference member, ?_⟩
    intro passed reference member
    cases looked : reference.followed with
    | true => exact followed reference member looked
    | false => exact passed reference member looked

/-- The names of a class and of its own constant, and a descriptor. -/
private def fewConstants : List Constant := [.utf8 [97, 47, 66], .classRef 1, .utf8 [40, 41, 86]]

private theorem declares_fewConstants : Declares (UInt16.toNat 4) fewConstants := by
  decide

private theorem className_fewConstants : TextAt fewConstants 1 "a/B" :=
  ⟨[97, 47, 66], by decide, by decide +kernel⟩

private theorem class_fewConstants : StandsAt fewConstants 2 (.classRef 1) := by
  decide

private theorem descriptor_fewConstants : TextAt fewConstants 3 "()V" :=
  ⟨[40, 41, 86], by decide, by decide +kernel⟩

/-- A class with one method, whose name is to stand at a number behind the last constant. -/
def danglingName : FileTree where
  minor := 0
  major := 52
  count := 4
  constants := fewConstants
  fits := by simp [fewConstants, Constant.Fits]
  declares := declares_fewConstants
  met := (ConstantPool.checkReferences_declaring_ok declares_fewConstants).mp rfl
  body :=
    { access := 0
      thisClass := ⟨2, ⟨1, "a/B", className_fewConstants⟩, class_fewConstants⟩
      superclass := none
      interfaces := ⟨[], by decide⟩
      fields := ⟨[], by decide⟩
      methods :=
        ⟨[⟨0, 9, ⟨3, "()V", descriptor_fewConstants⟩, ⟨[], by decide⟩⟩], by decide⟩
      attributes := ⟨[], by decide⟩ }

/-- The references of the class and of the descriptor are followed, and the file decodes. -/
theorem decode_references_danglingName :
    (∃ record, decode danglingName.encode = .ok record) ∧
      ∀ reference ∈ danglingName.references, reference.followed = true →
        reference.Met danglingName.constants := by
  obtain ⟨decodes, each⟩ := decode_references danglingName.encode
  exact ⟨decodes.mpr ⟨danglingName, [], (List.append_nil _).symm⟩,
    (each danglingName [] (List.append_nil _).symm).1⟩

/-- The name of a method may point past the constants: the file decodes all the same. -/
theorem decode_accepts_dangling_name :
    let bytes : List UInt8 := [0xCA, 0xFE, 0xBA, 0xBE, 0, 0, 0, 52, 0, 4, 1, 0, 3, 97, 47, 66, 7, 0,
      1, 1, 0, 3, 40, 41, 86, 0, 0, 0, 2, 0, 0, 0, 0, 0, 0, 0, 1, 0, 0, 0, 9, 0, 3, 0, 0, 0, 0]
    decode bytes = .ok (.ofReferences "a.B" none false ["a", "a"]) ∧
      bytes = danglingName.encode ++ [] ∧
      ¬ ∀ reference ∈ danglingName.references, reference.Met danglingName.constants := by
  intro bytes
  refine ⟨by decide +kernel, by decide +kernel, fun met => ?_⟩
  have nameMet := met (.unreadText 9) (by simp [danglingName, FileTree.references,
    ClassTree.references, MemberTree.references])
  rcases nameMet with ⟨optional, _⟩ | ⟨target, stands, _⟩
  · cases optional
  · have below : ∀ entry ∈ numbered 1 fewConstants, entry.1 ≠ 9 := by decide
    exact below _ stands rfl

end PackageAudit.ClassFile
