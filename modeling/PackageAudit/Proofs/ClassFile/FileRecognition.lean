import PackageAudit.Proofs.ClassFile.FileSyntax
import PackageAudit.Proofs.ClassFile.PoolRecognition
/-!
The readers of class files recognise their syntax.

Each reader is matched with the trees of what it reads: it accepts the bytes of every tree, finds
what the tree says, and accepts nothing else. Element values and method bodies are matched by
induction on the levels that are left to them.
-/

namespace PackageAudit.ClassFile

open Reader

/-- Finds these constants by their numbers and nothing else. -/
def ConstantPool.Lists (pool : ConstantPool) (constants : List Constant) : Prop :=
  ∀ index constant, pool.get index = .ok constant ↔ StandsAt constants index.toNat constant

private theorem toNat_ofNat_of_lt {n : Nat} (short : n < 4294967296) :
    (UInt32.ofNat n).toNat = n := by
  rw [UInt32.toNat_ofNat']
  exact Nat.mod_eq_of_lt short

/-- A length that fits is the number that is written for it. -/
private theorem bytes32_eq_encode32 {n : Nat} (short : n < 4294967296) :
    bytes32 n = encode32 (.ofNat n) := by
  rw [encode32, toNat_ofNat_of_lt short]

/-! ### References -/

/-- A number that is looked up at once is recognised by what it leads to. -/
private theorem recognizes_lookup {α τ : Type} {lookup : UInt16 → Except DecodeError α}
    {slot : τ → UInt16} {meaning : τ → α}
    (found : ∀ index value, lookup index = .ok value ↔
      ∃ reference, slot reference = index ∧ meaning reference = value) :
    (u16 >>= fun index => liftM (lookup index)).Recognizes
      (described (fun reference => encode16 (slot reference)) meaning) := by
  refine (Recognizes.u16.bind fun index => .lift (lookup index)).congr fun bytes value => ?_
  constructor
  · rintro ⟨_, _, index, rfl, rfl, rfl, answered⟩
    obtain ⟨reference, rfl, rfl⟩ := (found _ _).mp answered
    exact ⟨reference, List.append_nil _, rfl⟩
  · rintro ⟨reference, rfl, rfl⟩
    exact ⟨_, _, slot reference, (List.append_nil _).symm, rfl, rfl,
      (found _ _).mpr ⟨reference, rfl, rfl⟩⟩

private theorem recognizes_lookup_then {α β τ : Type} {lookup : UInt16 → Except DecodeError α}
    {slot : τ → UInt16} {meaning : τ → α}
    (found : ∀ index value, lookup index = .ok value ↔
      ∃ reference, slot reference = index ∧ meaning reference = value)
    {next : α → Reader β} {others : α → Language β}
    (behind : ∀ value, (next value).Recognizes (others value)) :
    (u16 >>= fun index => liftM (lookup index) >>= next).Recognizes
      ((described (fun reference => encode16 (slot reference)) meaning).followed others) := by
  rw [← bind_assoc]
  exact (recognizes_lookup found).bind behind

private theorem recognizes_lookup_answer {α β τ : Type} {lookup : UInt16 → Except DecodeError α}
    {slot : τ → UInt16} {meaning : τ → α}
    (found : ∀ index value, lookup index = .ok value ↔
      ∃ reference, slot reference = index ∧ meaning reference = value) (change : α → β) :
    (u16 >>= fun index => liftM (lookup index) >>= fun value => pure (change value)).Recognizes
      (described (fun reference => encode16 (slot reference))
        fun reference => change (meaning reference)) := by
  rw [← bind_assoc]
  exact (recognizes_lookup found).answer change

/-- Items that each say some texts say all of them together. -/
private theorem flatten_typeTexts {ι : Type} (items : List ι) (texts : ι → List String) :
    (items.map fun item => (texts item).map Mention.typeText).flatten =
      (items.flatMap texts).map .typeText := by
  rw [List.map_flatMap, List.flatMap_def]

private theorem element_recognizes {τ : Type} {encode : τ → List UInt8} {texts : τ → List String}
    {value : Reader (List Mention)}
    (inner : value.Recognizes (described encode fun tree => (texts tree).map .typeText)) :
    (Attribute.element value).Recognizes (described (encodeElement encode)
      fun pair => (texts pair.2).map .typeText) := by
  refine (Recognizes.u16.bind fun _ => inner).congr fun bytes mentions => ?_
  constructor
  · rintro ⟨_, _, name, rfl, rfl, tree, rfl, rfl⟩
    exact ⟨(name, tree), rfl, rfl⟩
  · rintro ⟨⟨name, tree⟩, rfl, rfl⟩
    exact ⟨_, _, name, rfl, rfl, tree, rfl, rfl⟩

/-- What is described by trees that make all payloads of a kind is described by these. -/
private theorem payload_of {constants : List Constant} {bodies : BodySyntax}
    {said : bodies.Tree → Facts} {τ : Type} {kind : AttributeKind} {reader : Reader Facts}
    {encode : τ → List UInt8} {meaning : τ → Facts} (make : τ → Payload constants bodies.Tree kind)
    (all : ∀ payload, ∃ tree, make tree = payload)
    (encoded : ∀ tree, (make tree).encode bodies.encode = encode tree)
    (meant : ∀ tree, (make tree).facts said = meaning tree)
    (recognizes : reader.Recognizes (described encode meaning)) :
    reader.Recognizes (described
      (fun payload : Payload constants bodies.Tree kind => payload.encode bodies.encode)
      fun payload => payload.facts said) := by
  refine recognizes.congr fun bytes facts => ?_
  constructor
  · rintro ⟨tree, rfl, rfl⟩
    exact ⟨make tree, (encoded tree).symm, (meant tree).symm⟩
  · rintro ⟨payload, rfl, rfl⟩
    obtain ⟨tree, rfl⟩ := all payload
    exact ⟨tree, encoded tree, meant tree⟩

section References

variable {constants : List Constant} {pool : ConstantPool} (lists : pool.Lists constants)
include lists

namespace ConstantPool.Lists

theorem textAt_iff (index : UInt16) (text : String) :
    pool.text index = .ok text ↔ TextAt constants index text := by
  simp only [ConstantPool.text_eq_ok_iff, lists _ _, TextAt]

theorem text_eq_ok_iff (index : UInt16) (text : String) :
    pool.text index = .ok text ↔
      ∃ reference : TextRef constants, reference.slot = index ∧ reference.text = text := by
  rw [lists.textAt_iff]
  constructor
  · exact fun stands => ⟨⟨index, text, stands⟩, rfl, rfl⟩
  · rintro ⟨reference, rfl, rfl⟩
    exact reference.stands

theorem className_eq_ok_iff (index : UInt16) (name : String) :
    pool.className index = .ok name ↔
      ∃ reference : ClassRef constants, reference.slot = index ∧ reference.name.text = name := by
  simp only [ConstantPool.className_eq_ok_iff, lists _ _, lists.text_eq_ok_iff]
  constructor
  · rintro ⟨_, stands, text, rfl, rfl⟩
    exact ⟨⟨index, text, stands⟩, rfl, rfl⟩
  · rintro ⟨reference, rfl, rfl⟩
    exact ⟨_, reference.stands, reference.name, rfl, rfl⟩

theorem nameAndTypeDescriptor_eq_ok_iff (index : UInt16) (descriptor : String) :
    pool.nameAndTypeDescriptor index = .ok descriptor ↔
      ∃ reference : MemberRef constants,
        reference.slot = index ∧ reference.descriptor.text = descriptor := by
  simp only [ConstantPool.nameAndTypeDescriptor_eq_ok_iff, lists _ _, lists.text_eq_ok_iff]
  constructor
  · rintro ⟨name, _, stands, text, rfl, rfl⟩
    exact ⟨⟨index, name, text, stands⟩, rfl, rfl⟩
  · rintro ⟨reference, rfl, rfl⟩
    exact ⟨_, _, reference.stands, reference.descriptor, rfl, rfl⟩

theorem classNameIfAny_eq_ok_iff (index : UInt16) (mentions : List Mention) :
    Attribute.classNameIfAny pool index = .ok mentions ↔
      ∃ reference : Option (ClassRef constants),
        classSlot reference = index ∧ classMentions reference = mentions := by
  unfold Attribute.classNameIfAny
  split
  next zero =>
    subst zero
    constructor
    · rintro ⟨⟩
      exact ⟨none, rfl, rfl⟩
    · rintro ⟨_ | reference, zero, rfl⟩
      · rfl
      · -- Nothing stands at zero.
        have stands := reference.stands
        rw [show reference.slot = 0 from zero] at stands
        exact absurd stands (not_standsAt_zero constants _)
  next positive =>
    rw [bind_eq_ok_iff]
    simp only [lists.className_eq_ok_iff]
    constructor
    · rintro ⟨_, ⟨reference, rfl, rfl⟩, answered⟩
      cases answered
      exact ⟨some reference, rfl, rfl⟩
    · rintro ⟨_ | reference, same, rfl⟩
      · exact absurd same.symm positive
      · exact ⟨_, ⟨reference, same, rfl⟩, rfl⟩

end ConstantPool.Lists

namespace Attribute

theorem typeText_recognizes :
    (typeText pool).Recognizes (described (@TextRef.encode constants) TextRef.mention) :=
  recognizes_lookup_answer lists.text_eq_ok_iff Mention.typeText

theorem className_recognizes :
    (className pool).Recognizes (described (@ClassRef.encode constants) ClassRef.mention) :=
  recognizes_lookup_answer lists.className_eq_ok_iff Mention.className

/-! ### Element values -/

theorem annotationBody_recognizes {τ : Type} {encode : τ → List UInt8} {texts : τ → List String}
    {value : Reader (List Mention)}
    (inner : value.Recognizes (described encode fun tree => (texts tree).map .typeText)) :
    (annotationBody pool value).Recognizes (described
      (AnnotationOf.encode encode : AnnotationOf constants τ → List UInt8)
      fun tree => (tree.typeTexts texts).map .typeText) := by
  refine ((typeText_recognizes lists).bind fun type =>
    ((element_recognizes inner).table.answer fun values =>
      type :: values.flatten)).congr fun bytes mentions => ?_
  constructor
  · rintro ⟨_, _, _, rfl, ⟨type, rfl, rfl⟩, elements, rfl, rfl⟩
    exact ⟨⟨type, elements⟩, rfl, congrArg (_ :: ·) (flatten_typeTexts elements.items _)⟩
  · rintro ⟨⟨type, elements⟩, rfl, rfl⟩
    exact ⟨_, _, _, rfl, ⟨type, rfl, rfl⟩, elements, rfl,
      congrArg (_ :: ·) (flatten_typeTexts elements.items _).symm⟩

/-- The type of an enum constant is looked up only once its name is read. -/
private theorem enumConstant_recognizes :
    (u16 >>= fun type => u16 >>= fun _ => liftM (pool.text type) >>= fun text =>
      pure [Mention.typeText text]).Recognizes (described
        (fun pair : TextRef constants × UInt16 => pair.1.encode ++ encode16 pair.2)
        fun pair => [pair.1.mention]) := by
  refine (Recognizes.u16.bind fun type => Recognizes.u16.bind fun _ =>
    (Recognizes.lift (pool.text type)).map fun text => [Mention.typeText text]).congr
      fun bytes mentions => ?_
  constructor
  · rintro ⟨_, _, _, rfl, rfl, _, _, name, rfl, rfl, _, ⟨rfl, found⟩, rfl⟩
    obtain ⟨type, rfl, rfl⟩ := (lists.text_eq_ok_iff _ _).mp found
    exact ⟨(type, name), by rw [List.append_nil]; rfl, rfl⟩
  · rintro ⟨⟨type, name⟩, rfl, rfl⟩
    exact ⟨_, _, type.slot, rfl, rfl, _, _, name, (List.append_nil _).symm, rfl, _,
      ⟨rfl, (lists.text_eq_ok_iff _ _).mpr ⟨type, rfl, rfl⟩⟩, rfl⟩

/-- By induction on the levels that are left; the tag decides between the kinds of values. -/
theorem elementValue_recognizes (levels : Nat) :
    (elementValue pool levels).Recognizes (described
      (ElementTree.encode levels : ElementTree constants levels → List UInt8)
      fun tree => (ElementTree.typeTexts levels tree).map .typeText) := by
  induction levels with
  | zero => exact ⟨by rintro _ _ ⟨tree, _, _⟩; exact tree.elim, nofun⟩
  | succ levels ih =>
    have constant : (u16 >>= fun _ => pure ([] : List Mention)).Recognizes _ :=
      Recognizes.u16.map fun _ => []
    have classLiteral := (typeText_recognizes lists).answer fun mention => [mention]
    have annotated := annotationBody_recognizes lists ih
    have array := ih.table.answer List.flatten
    -- A tree shows its tag and so which branch reads it; a tag that was read shows the tree.
    constructor
    case takes =>
      rintro _ _ ⟨tree, rfl, rfl⟩
      refine match (tree : ElementOf constants (ElementTree constants levels)) with
        | .constant tag known number => .tagged fun _ => ?_
        | .enumConstant type name => .tagged fun _ => ?_
        | .classLiteral type => .tagged fun _ => ?_
        | .annotated tree => .tagged fun _ => ?_
        | .array values => .tagged fun _ => ?_
      · rw [if_pos known]
        exact constant.takes ⟨number, rfl, rfl⟩
      · rw [if_neg (by decide), if_pos (by decide)]
        exact (enumConstant_recognizes lists).takes ⟨(type, name), rfl, rfl⟩
      · rw [if_neg (by decide), if_neg (by decide), if_pos (by decide)]
        exact classLiteral.takes ⟨type, rfl, rfl⟩
      · rw [if_neg (by decide), if_neg (by decide), if_neg (by decide), if_pos (by decide)]
        exact annotated.takes ⟨tree, rfl, rfl⟩
      · rw [if_neg (by decide), if_neg (by decide), if_neg (by decide), if_neg (by decide),
          if_pos (by decide)]
        exact array.takes ⟨values, rfl, (flatten_typeTexts values.items _).symm⟩
    case only =>
      refine .tagged fun place tag => ?_
      split
      next known =>
        refine constant.only.mono ?_
        rintro _ _ ⟨number, rfl, rfl⟩
        exact ⟨ElementOf.constant tag known number, rfl, rfl⟩
      split
      next same =>
        refine (enumConstant_recognizes lists).only.mono ?_
        rintro _ _ ⟨⟨type, name⟩, rfl, rfl⟩
        exact ⟨ElementOf.enumConstant type name, congrArg (· :: _) (UInt8.toNat.inj same), rfl⟩
      split
      next same =>
        refine classLiteral.only.mono ?_
        rintro _ _ ⟨type, rfl, rfl⟩
        exact ⟨ElementOf.classLiteral type, congrArg (· :: _) (UInt8.toNat.inj same), rfl⟩
      split
      next same =>
        refine annotated.only.mono ?_
        rintro _ _ ⟨tree, rfl, rfl⟩
        exact ⟨ElementOf.annotated tree, congrArg (· :: _) (UInt8.toNat.inj same), rfl⟩
      split
      next same =>
        refine array.only.mono ?_
        rintro _ _ ⟨values, rfl, rfl⟩
        exact ⟨ElementOf.array values, congrArg (· :: _) (UInt8.toNat.inj same),
          flatten_typeTexts values.items _⟩
      next => exact (Recognizes.throw _).only.mono fun _ _ => False.elim

/-! ### Annotations -/

theorem annotations_recognizes :
    (annotations pool).Recognizes (described (Table.encode (@AnnotationTree.encode constants))
      fun list => (list.items.flatMap AnnotationTree.typeTexts).map .typeText) := by
  have tree := annotationBody_recognizes lists (elementValue_recognizes lists maxLevels)
  have list := tree.table.answer List.flatten
  simp only [flatten_typeTexts] at list
  exact list

theorem parameterAnnotations_recognizes :
    (parameterAnnotations pool).Recognizes (described
      (fun parameters : { list : List (Table (AnnotationTree constants)) // list.length ≤ 255 } =>
        .ofNat parameters.1.length :: (parameters.1.map (·.encode AnnotationTree.encode)).flatten)
      fun parameters => (parameters.1.flatMap fun list =>
        list.items.flatMap AnnotationTree.typeTexts).map .typeText) := by
  refine (Recognizes.u8.bind fun count => ((annotations_recognizes lists).times count.toNat).map
    List.flatten).congr fun bytes mentions => ?_
  constructor
  · rintro ⟨_, _, count, rfl, rfl, _, ⟨parameters, full, rfl, rfl⟩, rfl⟩
    have bound := count.toNat_lt
    refine ⟨⟨parameters, by omega⟩, ?_, flatten_typeTexts parameters _⟩
    simp only [full, UInt8.ofNat_toNat, List.singleton_append]
  · rintro ⟨⟨parameters, few⟩, rfl, rfl⟩
    have count : (UInt8.ofNat parameters.length).toNat = parameters.length := by
      rw [UInt8.toNat_ofNat']
      omega
    exact ⟨[_], _, _, rfl, rfl, _, ⟨parameters, count.symm, rfl, rfl⟩,
      (flatten_typeTexts parameters _).symm⟩

/-! ### Rows -/

theorem innerClass_recognizes :
    (innerClass pool).Recognizes
      (described (@InnerClassRow.encode constants) InnerClassRow.mentions) := by
  refine (Recognizes.u16.bind fun inner => Recognizes.u16.bind fun outer =>
    Recognizes.u16.bind fun _ => Recognizes.u16.bind fun _ =>
    (Recognizes.lift (classNameIfAny pool inner)).bind fun inside =>
    (Recognizes.lift (classNameIfAny pool outer)).map fun outside => inside ++ outside).congr
      fun bytes mentions => ?_
  constructor
  · rintro ⟨_, _, _, rfl, rfl, _, _, _, rfl, rfl, _, _, name, rfl, rfl, _, _, flags, rfl, rfl,
      _, _, _, rfl, ⟨rfl, innerFound⟩, _, ⟨rfl, outerFound⟩, rfl⟩
    -- Both classes are looked up behind the whole row, so only now their references are known.
    obtain ⟨inner, rfl, rfl⟩ := (lists.classNameIfAny_eq_ok_iff _ _).mp innerFound
    obtain ⟨outer, rfl, rfl⟩ := (lists.classNameIfAny_eq_ok_iff _ _).mp outerFound
    exact ⟨⟨inner, outer, name, flags⟩, by simp [InnerClassRow.encode, encodeClassIfAny], rfl⟩
  · rintro ⟨⟨inner, outer, name, flags⟩, rfl, rfl⟩
    exact ⟨_, _, _, rfl, rfl, _, _, _, rfl, rfl, _, _, name, rfl, rfl, _, _, flags,
      (List.append_nil _).symm, rfl, _, _, _, rfl,
      ⟨rfl, (lists.classNameIfAny_eq_ok_iff _ _).mpr ⟨inner, rfl, rfl⟩⟩, _,
      ⟨rfl, (lists.classNameIfAny_eq_ok_iff _ _).mpr ⟨outer, rfl, rfl⟩⟩, rfl⟩

/-- The method of an enclosing class, where zero stands for none. -/
private theorem methodIfAny_recognizes (index : UInt16) (name : String) :
    (if index = 0 then pure [Mention.className name]
      else liftM (pool.nameAndTypeDescriptor index) >>= fun descriptor =>
        pure [Mention.className name, .typeText descriptor] : Reader (List Mention)).Recognizes
      fun bytes mentions => bytes = [] ∧ ∃ method : Option (MemberRef constants),
        method.elim 0 (·.slot) = index ∧
          mentions = .className name :: method.toList.map (·.descriptor.mention) := by
  split
  next zero =>
    refine (Recognizes.pure _).congr fun bytes mentions => ?_
    constructor
    · rintro ⟨rfl, rfl⟩
      exact ⟨rfl, none, zero.symm, rfl⟩
    · rintro ⟨rfl, _ | method, same, rfl⟩
      · exact ⟨rfl, rfl⟩
      · -- Nothing stands at zero.
        have stands := method.stands
        rw [show method.slot = 0 from same.trans zero] at stands
        exact absurd stands (not_standsAt_zero constants _)
  next positive =>
    refine ((Recognizes.lift (pool.nameAndTypeDescriptor index)).map fun descriptor =>
      [Mention.className name, .typeText descriptor]).congr fun bytes mentions => ?_
    constructor
    · rintro ⟨_, ⟨rfl, found⟩, rfl⟩
      obtain ⟨method, rfl, rfl⟩ := (lists.nameAndTypeDescriptor_eq_ok_iff _ _).mp found
      exact ⟨rfl, some method, rfl, rfl⟩
    · rintro ⟨rfl, _ | method, same, rfl⟩
      · exact absurd same.symm positive
      · exact ⟨_, ⟨rfl, (lists.nameAndTypeDescriptor_eq_ok_iff _ _).mpr ⟨method, same, rfl⟩⟩, rfl⟩

theorem enclosingMethod_recognizes :
    (enclosingMethod pool).Recognizes
      (described (@EnclosingMethodRow.encode constants) EnclosingMethodRow.mentions) := by
  refine (Recognizes.u16.bind fun owner => Recognizes.u16.bind fun method =>
    (Recognizes.lift (pool.className owner)).bind fun name =>
    methodIfAny_recognizes lists method name).congr fun bytes mentions => ?_
  constructor
  · rintro ⟨_, _, _, rfl, rfl, _, _, _, rfl, rfl, _, _, _, rfl, ⟨rfl, found⟩, rfl, method, rfl, rfl⟩
    obtain ⟨owner, rfl, rfl⟩ := (lists.className_eq_ok_iff _ _).mp found
    exact ⟨⟨owner, method⟩, by simp [EnclosingMethodRow.encode, ClassRef.encode], rfl⟩
  · rintro ⟨⟨owner, method⟩, rfl, rfl⟩
    exact ⟨_, _, owner.slot, rfl, rfl, _, _, _, (List.append_nil _).symm, rfl, _, _, _, rfl,
      ⟨rfl, (lists.className_eq_ok_iff _ _).mpr ⟨owner, rfl, rfl⟩⟩, rfl, method, rfl, rfl⟩

theorem localVariable_recognizes :
    (localVariable pool).Recognizes
      (described (@LocalVariableRow.encode constants) fun row => row.type.mention) := by
  refine (Recognizes.u16.bind fun _ => Recognizes.u16.bind fun _ => Recognizes.u16.bind fun _ =>
    Recognizes.u16.bind fun index => Recognizes.u16.bind fun _ =>
    (Recognizes.lift (pool.text index)).map Mention.typeText).congr fun bytes mention => ?_
  constructor
  · rintro ⟨_, _, start, rfl, rfl, _, _, length, rfl, rfl, _, _, name, rfl, rfl, _, _, _, rfl, rfl,
      _, _, frameSlot, rfl, rfl, _, ⟨rfl, found⟩, rfl⟩
    obtain ⟨type, rfl, rfl⟩ := (lists.text_eq_ok_iff _ _).mp found
    exact ⟨⟨start, length, name, type, frameSlot⟩, by simp [LocalVariableRow.encode, TextRef.encode],
      rfl⟩
  · rintro ⟨⟨start, length, name, type, frameSlot⟩, rfl, rfl⟩
    exact ⟨_, _, start, rfl, rfl, _, _, length, rfl, rfl, _, _, name, rfl, rfl, _, _, _, rfl, rfl,
      _, _, frameSlot, (List.append_nil _).symm, rfl, _,
      ⟨rfl, (lists.text_eq_ok_iff _ _).mpr ⟨type, rfl, rfl⟩⟩, rfl⟩

theorem handler_recognizes :
    (handler pool).Recognizes
      (described (@HandlerRow.encode constants) fun row => classMentions row.caught) := by
  refine (Recognizes.u16.bind fun _ => Recognizes.u16.bind fun _ => Recognizes.u16.bind fun _ =>
    recognizes_lookup lists.classNameIfAny_eq_ok_iff).congr fun bytes mentions => ?_
  constructor
  · rintro ⟨_, _, start, rfl, rfl, _, _, stop, rfl, rfl, _, _, target, rfl, rfl, caught, rfl, rfl⟩
    exact ⟨⟨start, stop, target, caught⟩, rfl, rfl⟩
  · rintro ⟨⟨start, stop, target, caught⟩, rfl, rfl⟩
    exact ⟨_, _, start, rfl, rfl, _, _, stop, rfl, rfl, _, _, target, rfl, rfl, caught, rfl, rfl⟩

/-! ### Attributes -/

section Attributes

variable {bodies : BodySyntax} {said : bodies.Tree → Facts} {body : Reader Facts}

theorem payload_recognizes (inner : body.Recognizes (described bodies.encode said)) (name : String) :
    (payload pool body name).Recognizes (described
      (fun payload : Payload constants bodies.Tree (.ofName name) => payload.encode bodies.encode)
      fun payload => payload.facts said) := by
  generalize named : AttributeKind.ofName name = kind
  unfold payload
  split
  case h_1 =>
    obtain rfl : AttributeKind.sourceFile = kind := named
    exact payload_of .sourceFile (fun | .sourceFile file => ⟨file, rfl⟩) (fun _ => rfl) (fun _ => rfl)
      (recognizes_lookup_answer lists.text_eq_ok_iff fun file =>
        ({ sourceFile := some file } : Facts))
  case h_2 =>
    obtain rfl : AttributeKind.signature = kind := named
    exact payload_of .signature (fun | .signature type => ⟨type, rfl⟩) (fun _ => rfl) (fun _ => rfl)
      ((typeText_recognizes lists).answer fun mention => Facts.mentioning [mention])
  case h_3 =>
    obtain rfl : AttributeKind.exceptions = kind := named
    exact payload_of .exceptions (fun | .exceptions classes => ⟨classes, rfl⟩) (fun _ => rfl)
      (fun _ => rfl) ((className_recognizes lists).table.answer Facts.mentioning)
  case h_4 =>
    obtain rfl : AttributeKind.innerClasses = kind := named
    exact payload_of .innerClasses (fun | .innerClasses rows => ⟨rows, rfl⟩) (fun _ => rfl)
      (fun _ => rfl) (((innerClass_recognizes lists).table.answer List.flatten).answer
        Facts.mentioning)
  case h_5 =>
    obtain rfl : AttributeKind.enclosingMethod = kind := named
    exact payload_of .enclosingMethod (fun | .enclosingMethod row => ⟨row, rfl⟩) (fun _ => rfl)
      (fun _ => rfl) ((enclosingMethod_recognizes lists).answer Facts.mentioning)
  case h_6 | h_7 =>
    obtain rfl : AttributeKind.annotations = kind := named
    exact payload_of .annotations (fun | .annotations list => ⟨list, rfl⟩) (fun _ => rfl)
      (fun _ => rfl) ((annotations_recognizes lists).answer Facts.mentioning)
  case h_8 | h_9 =>
    obtain rfl : AttributeKind.parameterAnnotations = kind := named
    exact payload_of (fun parameters : { list // _ } => .parameterAnnotations parameters.1 parameters.2)
      (fun | .parameterAnnotations parameters few => ⟨⟨parameters, few⟩, rfl⟩) (fun _ => rfl)
      (fun _ => rfl) ((parameterAnnotations_recognizes lists).answer Facts.mentioning)
  case h_10 =>
    obtain rfl : AttributeKind.annotationDefault = kind := named
    exact payload_of .annotationDefault (fun | .annotationDefault value => ⟨value, rfl⟩) (fun _ => rfl)
      (fun _ => rfl) ((elementValue_recognizes lists maxLevels).answer Facts.mentioning)
  case h_11 =>
    obtain rfl : AttributeKind.code = kind := named
    exact payload_of .code (fun | .code tree => ⟨tree, rfl⟩) (fun _ => rfl) (fun _ => rfl) inner
  case h_12 | h_13 =>
    obtain rfl : AttributeKind.localVariables = kind := named
    exact payload_of .localVariables (fun | .localVariables rows => ⟨rows, rfl⟩) (fun _ => rfl)
      (fun _ => rfl) ((localVariable_recognizes lists).table.answer Facts.mentioning)
  case h_14 =>
    have unknown : AttributeKind.ofName name = .unrecognized := by
      unfold AttributeKind.ofName
      split <;> first | rfl | contradiction
    obtain rfl : AttributeKind.unrecognized = kind := unknown.symm.trans named
    refine (Recognizes.pure Facts.empty).congr fun bytes facts => ?_
    constructor
    · rintro ⟨rfl, rfl⟩
      exact ⟨.unrecognized, rfl, rfl⟩
    · rintro ⟨payload, rfl, rfl⟩
      cases payload
      exact ⟨rfl, rfl⟩

/-- What the payload leaves unread within the length of the attribute belongs to it. -/
theorem entry_recognizes (inner : body.Recognizes (described bodies.encode said)) :
    (entry pool body).Recognizes (described
      (AttributeOf.encode : AttributeOf constants bodies → List UInt8) (AttributeOf.facts said)) := by
  refine (Recognizes.u16.bind fun index => Recognizes.u32.bind fun length =>
    (Recognizes.lift (pool.text index)).bind fun name =>
    (payload_recognizes lists inner name).within length.toNat).congr fun bytes facts => ?_
  constructor
  · rintro ⟨_, _, _, rfl, rfl, _, _, length, rfl, rfl, _, _, _, rfl, ⟨rfl, found⟩, full, _, unread,
      rfl, payload, rfl, rfl⟩
    obtain ⟨name, rfl, rfl⟩ := (lists.text_eq_ok_iff _ _).mp found
    -- The declared length is that of the payload together with what it leaves unread.
    refine ⟨⟨name, payload, unread, full ▸ length.toNat_lt⟩, ?_, rfl⟩
    simp only [AttributeOf.encode, full, List.nil_append]
    rfl
  · rintro ⟨⟨name, payload, unread, short⟩, rfl, rfl⟩
    exact ⟨_, _, name.slot, rfl, rfl, _, _, _, rfl, bytes32_eq_encode32 short, [], _, _, rfl,
      ⟨rfl, (lists.text_eq_ok_iff _ _).mpr ⟨name, rfl, rfl⟩⟩, (toNat_ofNat_of_lt short).symm, _,
      unread, rfl, payload, rfl, rfl⟩

theorem table_recognizes (inner : body.Recognizes (described bodies.encode said)) :
    (table pool body).Recognizes (described
      (Table.encode (AttributeOf.encode : AttributeOf constants bodies → List UInt8))
      (Table.facts (AttributeOf.facts said))) :=
  (entry_recognizes lists inner).table.answer Facts.concat

theorem code_recognizes {τ : Type} {encode : τ → List UInt8} {facts : τ → Facts}
    {attributes : Reader Facts}
    (inner : attributes.Recognizes (described (Table.encode encode) (Table.facts facts))) :
    (code pool attributes).Recognizes (described
      (CodeOf.encode encode : CodeOf constants τ → List UInt8) (CodeOf.facts facts)) := by
  refine (Recognizes.u16.bind fun _ => Recognizes.u16.bind fun _ => Recognizes.u32.bind fun length =>
    ((Recognizes.bytes length.toNat).map fun _ => ()).bind fun _ =>
    (handler_recognizes lists).table.bind fun handlers => inner.map fun nested =>
      (Facts.mentioning handlers.flatten).append nested).congr fun bytes said => ?_
  constructor
  · rintro ⟨_, _, stack, rfl, rfl, _, _, frame, rfl, rfl, _, _, length, rfl, rfl, instructions, _,
      _, rfl, ⟨_, ⟨rfl, full⟩, rfl⟩, _, _, _, rfl, ⟨handlers, rfl, rfl⟩, _, ⟨attributes, rfl, rfl⟩,
      rfl⟩
    refine ⟨⟨stack, frame, _, full ▸ length.toNat_lt, handlers, attributes⟩, ?_, rfl⟩
    simp only [CodeOf.encode, full]
    rfl
  · rintro ⟨⟨stack, frame, instructions, short, handlers, attributes⟩, rfl, rfl⟩
    exact ⟨_, _, stack, rfl, rfl, _, _, frame, rfl, rfl, _, _, _, rfl, bytes32_eq_encode32 short,
      instructions, _, _, rfl, ⟨_, ⟨rfl, (toNat_ofNat_of_lt short).symm⟩, rfl⟩, _, _, _, rfl,
      ⟨handlers, rfl, rfl⟩, _, ⟨attributes, rfl, rfl⟩, rfl⟩

end Attributes

/-- By induction on the method bodies that may still enclose one another. -/
theorem bodyWithin_recognizes (levels : Nat) :
    (bodyWithin pool levels).Recognizes (described (bodySyntax constants levels).encode
      (bodyFacts levels)) := by
  induction levels with
  | zero => exact ⟨by rintro _ _ ⟨tree, _, _⟩; exact tree.elim, nofun⟩
  | succ levels ih => exact code_recognizes lists (table_recognizes lists ih)

theorem tableWithin_recognizes :
    (tableWithin pool maxLevels).Recognizes (described
      (Table.encode (AttributeOf.encode : AttributeTree constants → List UInt8))
      (Table.facts AttributeTree.facts)) :=
  table_recognizes lists (bodyWithin_recognizes lists maxLevels)

end Attribute

/-! ### The class file -/

theorem member_recognizes :
    (member pool).Recognizes (described (@MemberTree.encode constants) MemberTree.facts) := by
  refine (Recognizes.u16.bind fun _ => Recognizes.u16.bind fun _ =>
    (Attribute.typeText_recognizes lists).bind fun descriptor =>
    (Attribute.tableWithin_recognizes lists).map fun attributes =>
      (Facts.mentioning [descriptor]).append attributes).congr fun bytes facts => ?_
  constructor
  · rintro ⟨_, _, access, rfl, rfl, _, _, name, rfl, rfl, _, _, _, rfl, ⟨descriptor, rfl, rfl⟩, _,
      ⟨attributes, rfl, rfl⟩, rfl⟩
    exact ⟨⟨access, name, descriptor, attributes⟩, rfl, rfl⟩
  · rintro ⟨⟨access, name, descriptor, attributes⟩, rfl, rfl⟩
    exact ⟨_, _, access, rfl, rfl, _, _, name, rfl, rfl, _, _, _, rfl, ⟨descriptor, rfl, rfl⟩, _,
      ⟨attributes, rfl, rfl⟩, rfl⟩

theorem readBody_recognizes :
    (readBody pool).Recognizes fun bytes record =>
      ∃ (tree : ClassTree constants) (found : List Mention),
        bytes = tree.encode ∧ pool.mentions = .ok found ∧ record = tree.record found := by
  refine (Recognizes.u16.bind fun access =>
    recognizes_lookup_then lists.className_eq_ok_iff fun name =>
    recognizes_lookup_then lists.classNameIfAny_eq_ok_iff fun superclass =>
    (Attribute.className_recognizes lists).table.bind fun interfaces =>
    (member_recognizes lists).table.bind fun fields =>
    (member_recognizes lists).table.bind fun methods =>
    (Attribute.tableWithin_recognizes lists).bind fun attributes =>
    (Recognizes.lift pool.mentions).map fun constants => _).congr fun bytes record => ?_
  constructor
  · rintro ⟨_, _, access, rfl, rfl, _, _, _, rfl, ⟨thisClass, rfl, rfl⟩, _, _, _, rfl,
      ⟨superclass, rfl, rfl⟩, _, _, _, rfl, ⟨interfaces, rfl, rfl⟩, _, _, _, rfl,
      ⟨fields, rfl, rfl⟩, _, _, _, rfl, ⟨methods, rfl, rfl⟩, _, _, _, rfl, ⟨attributes, rfl, rfl⟩,
      _, ⟨rfl, found⟩, rfl⟩
    exact ⟨⟨access, thisClass, superclass, interfaces, fields, methods, attributes⟩, _,
      by rw [List.append_nil]; rfl, found, rfl⟩
  · rintro ⟨⟨access, thisClass, superclass, interfaces, fields, methods, attributes⟩, _, rfl, found,
      rfl⟩
    exact ⟨_, _, access, rfl, rfl, _, _, _, rfl, ⟨thisClass, rfl, rfl⟩, _, _, _, rfl,
      ⟨superclass, rfl, rfl⟩, _, _, _, rfl, ⟨interfaces, rfl, rfl⟩, _, _, _, rfl,
      ⟨fields, rfl, rfl⟩, _, _, _, rfl, ⟨methods, rfl, rfl⟩, _, _, _, (List.append_nil _).symm,
      ⟨attributes, rfl, rfl⟩, _, ⟨rfl, found⟩, rfl⟩

end References

theorem readMagic_recognizes : readMagic.Recognizes fun bytes _ => bytes = encode32 0xCAFEBABE := by
  have checked (magic : UInt32) : (if magic ≠ 0xCAFEBABE then throw (.badMagic magic)
      else pure () : Reader Unit).Recognizes fun bytes _ => bytes = [] ∧ magic = 0xCAFEBABE := by
    split
    next other => exact (Recognizes.throw _).congr fun _ _ => by simp [other]
    next same => exact (Recognizes.pure ()).congr fun _ _ => by simp [not_not.mp same]
  refine (Recognizes.u32.bind fun magic => checked magic).congr fun bytes _ => ?_
  constructor
  · rintro ⟨_, _, _, rfl, rfl, rfl, rfl⟩
    exact List.append_nil _
  · rintro rfl
    exact ⟨_, _, _, (List.append_nil _).symm, rfl, rfl, rfl⟩

theorem FileTree.lists (file : FileTree) : file.pool.Lists file.constants :=
  ConstantPool.get_declaring file.declares

/-- A class file is read if it begins with a tree of its syntax, whatever stands behind it. -/
theorem readClass_recognizes : readClass.Recognizes fun bytes record =>
    ∃ (file : FileTree) (found : List Mention),
      bytes = file.encode ∧ file.pool.mentions = .ok found ∧ record = file.body.record found where
  takes := by
    rintro _ _ ⟨file, found, rfl, mentioned, rfl⟩
    have magic : readMagic.Takes (encode32 0xCAFEBABE) () := readMagic_recognizes.takes rfl
    have pool := ConstantPool.recognizes_read.takes
      ⟨file.count, file.constants, file.fits, file.declares, file.met, rfl, rfl⟩
    have body := (readBody_recognizes file.lists).takes ⟨file.body, found, rfl, mentioned, rfl⟩
    exact magic.bind ((Takes.encode16 file.minor).bind ((Takes.encode16 file.major).bind
      (pool.bind body)))
  only := by
    intro cursor record after read
    obtain ⟨_, first, magic, read⟩ := exists_of_bind read
    obtain ⟨minor, second, minorRead, read⟩ := exists_of_bind read
    obtain ⟨major, third, majorRead, read⟩ := exists_of_bind read
    obtain ⟨pool, last, poolRead, bodyRead⟩ := exists_of_bind read
    obtain ⟨_, rfl, magicSplit⟩ := readMagic_recognizes.only magic
    obtain ⟨_, rfl, minorSplit⟩ := Recognizes.u16.only minorRead
    obtain ⟨_, rfl, majorSplit⟩ := Recognizes.u16.only majorRead
    -- Which trees the rest can be depends on the constants that were read.
    obtain ⟨_, ⟨count, constants, fits, declares, met, rfl, rfl⟩, poolSplit⟩ :=
      ConstantPool.recognizes_read.only poolRead
    obtain ⟨_, ⟨body, found, rfl, mentioned, rfl⟩, bodySplit⟩ :=
      (readBody_recognizes (ConstantPool.get_declaring declares)).only bodyRead
    refine ⟨_, ⟨⟨minor, major, count, constants, fits, declares, met, body⟩, found, rfl, mentioned,
      rfl⟩, ?_⟩
    simp only [magicSplit, minorSplit, majorSplit, poolSplit, bodySplit, FileTree.encode,
      List.append_assoc]

end PackageAudit.ClassFile
