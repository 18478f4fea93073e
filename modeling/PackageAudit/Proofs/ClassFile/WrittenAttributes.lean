import PackageAudit.Proofs.ClassFile.NestedReading
import PackageAudit.Proofs.ClassFile.Writing
/-!
Attributes read back from where they were written.

Each writer of a part of an attribute is matched with the reader of that part. Element values are
matched by induction on the value, in every number of levels: it is taken where the levels leave room for it,
and everywhere else its reader stops. Attributes with their method bodies are matched in the same way.
-/

namespace PackageAudit.ClassFile

open Reader ConstantPool

section Tables

variable {pool : ConstantPool} {slot : UInt16}

theorem takes_typeText {text : String} (found : pool.text slot = .ok text) :
    (Attribute.typeText pool).Takes (encode16 slot) (.typeText text) :=
  (Takes.encode16 slot).resolve found Mention.typeText

theorem takes_className {name : String} (found : pool.className slot = .ok name) :
    (Attribute.className pool).Takes (encode16 slot) (.className name) :=
  (Takes.encode16 slot).resolve found Mention.className

end Tables

/-! ### Element values -/

section ElementValues

variable {pool : ConstantPool} {levels : Nat} {room : Prop} {bytes : List UInt8}
  {mentions : List Mention}

private theorem takes_constantValue {tag : UInt8} (constant : Attribute.isConstantTag tag = true)
    (slot : UInt16) : (Attribute.elementValue pool (levels + 1)).Takes (tag :: encode16 slot) [] := by
  refine .tagged fun _ => ?_
  rw [if_pos constant]
  exact (Takes.encode16 slot).map fun _ => []

private theorem takes_enumConstant {descriptorSlot : UInt16} {descriptor : String}
    (described : pool.text descriptorSlot = .ok descriptor) (nameSlot : UInt16) :
    (Attribute.elementValue pool (levels + 1)).Takes
      (.ofNat 'e'.toNat :: (encode16 descriptorSlot ++ encode16 nameSlot))
      [.typeText descriptor] := by
  refine .tagged fun _ => ?_
  rw [if_neg (by decide), if_pos (by decide)]
  exact (Takes.encode16 descriptorSlot).bind
    ((Takes.encode16 nameSlot).resolve described fun descriptor => [Mention.typeText descriptor])

private theorem takes_classLiteral {slot : UInt16} {descriptor : String}
    (described : pool.text slot = .ok descriptor) :
    (Attribute.elementValue pool (levels + 1)).Takes (.ofNat 'c'.toNat :: encode16 slot)
      [.typeText descriptor] := by
  refine .tagged fun _ => ?_
  rw [if_neg (by decide), if_neg (by decide), if_pos (by decide)]
  exact (takes_typeText described).map fun mention => [mention]

private theorem within_annotated
    (inner : (Attribute.annotationBody pool (Attribute.elementValue pool levels)).TakesWithin room
      bytes mentions) :
    (Attribute.elementValue pool (levels + 1)).TakesWithin room (.ofNat '@'.toNat :: bytes)
      mentions := by
  refine .tagged fun _ => ?_
  rw [if_neg (by decide), if_neg (by decide), if_neg (by decide), if_pos (by decide)]
  exact inner

private theorem within_array {parts : List (List UInt8)} {found : List (List Mention)}
    (items : (Attribute.elementValue pool levels).TakesEach room parts found)
    (few : parts.length ≤ 65535) :
    (Attribute.elementValue pool (levels + 1)).TakesWithin room (.ofNat '['.toNat :: encodeTable parts)
      found.flatten := by
  refine .tagged fun _ => ?_
  rw [if_neg (by decide), if_neg (by decide), if_neg (by decide), if_neg (by decide),
    if_pos (by decide)]
  exact (items.table few).map List.flatten

private theorem within_element {value : Reader (List Mention)}
    (inner : value.TakesWithin room bytes mentions) (nameSlot : UInt16) :
    (Attribute.element value).TakesWithin room (encode16 nameSlot ++ bytes) mentions :=
  .behind (.encode16 nameSlot) inner

private theorem within_annotationBody {value : Reader (List Mention)} {slot : UInt16}
    {descriptor : String} {parts : List (List UInt8)} {found : List (List Mention)}
    (described : pool.text slot = .ok descriptor)
    (items : (Attribute.element value).TakesEach room parts found) (few : parts.length ≤ 65535) :
    (Attribute.annotationBody pool value).TakesWithin room (encode16 slot ++ encodeTable parts)
      (.typeText descriptor :: found.flatten) :=
  .behind (takes_typeText described) ((items.table few).map (.typeText descriptor :: ·.flatten))

/-- A value takes a level of its own above those of the values within it. -/
private theorem within_level {inside : Nat}
    (read : ∀ levels, (Attribute.elementValue pool (levels + 1)).TakesWithin (inside ≤ levels) bytes
      mentions) (levels : Nat) :
    (Attribute.elementValue pool levels).TakesWithin (inside + 1 ≤ levels) bytes mentions := by
  cases levels with
  | zero => exact .of_stops (by simp) (fun offset rest => ⟨offset, rfl⟩) mentions
  | succ levels => exact (read levels).congr Nat.succ_le_succ_iff.symm

end ElementValues

namespace Writes

variable {before : ConstantPool → Prop}

mutual

theorem elementValue {before : ConstantPool → Prop} : (value : ElementValue) → value.Fits →
    Writes before (Build.elementValue value) [] fun pool bytes =>
      ∀ levels, (Attribute.elementValue pool levels).TakesWithin (value.levels ≤ levels) bytes
        value.mentions
  | .int bits, _ => by
    refine (add (.integer bits) trivial (by simp [Constant.references]) (by simp [Mentions])).map _ ?_
    intro pool slot _ _
    exact within_level fun levels => .of_takes (Nat.zero_le _) (takes_constantValue (by decide) slot)
  | .string value, fits => by
    refine (text fits).map _ ?_
    intro pool slot _ _
    exact within_level fun levels => .of_takes (Nat.zero_le _) (takes_constantValue (by decide) slot)
  | .enumConstant descriptor name, fits => by
    refine (text fits.1).bind fun descriptorSlot => (text fits.2).map _ ?_
    rintro pool nameSlot ⟨_, described⟩ _
    exact within_level fun levels =>
      .of_takes (Nat.zero_le _) (takes_enumConstant described nameSlot)
  | .classLiteral descriptor, fits => by
    refine (text fits).map _ ?_
    intro pool slot _ described
    exact within_level fun levels => .of_takes (Nat.zero_le _) (takes_classLiteral described)
  | .annotated descriptor elements, fits => by
    refine (text fits.1).bind fun slot => (elementPairs elements fits.2.2).map _ ?_
    rintro pool parts ⟨_, described⟩ found
    refine within_level fun levels => ?_
    refine within_annotated (within_annotationBody described (found levels) ?_)
    rw [(found levels).length_eq, ElementValue.length_mentionsOfElements]
    exact fits.2.1
  | .array values, fits => by
    refine (elementValues values fits.2).map _ ?_
    intro pool parts _ found
    refine within_level fun levels => within_array (found levels) ?_
    rw [(found levels).length_eq, ElementValue.length_mentionsOfValues]
    exact fits.1
  | .rawTag tag, fits => fits.elim

theorem elementValues {before : ConstantPool → Prop} : (values : List ElementValue) →
    ElementValue.ValuesFit values →
    Writes before (Build.elementValues values) [] fun pool parts =>
      ∀ levels, (Attribute.elementValue pool levels).TakesEach
        (ElementValue.levelsOfValues values ≤ levels) parts (ElementValue.mentionsOfValues values)
  | [], _ => .pure fun _ _ levels => TakesEach.nil.congr (iff_of_true trivial (Nat.zero_le levels))
  | value :: rest, fits => by
    refine (elementValue value fits.1).bind fun bytes =>
      (elementValues rest fits.2).map (bytes :: ·) ?_
    rintro pool parts ⟨_, first⟩ others levels
    exact (TakesEach.cons (first levels) (others levels)).congr Nat.max_le.symm

theorem elementPairs {before : ConstantPool → Prop} : (elements : List (String × ElementValue)) →
    ElementValue.ElementsFit elements →
    Writes before (Build.elementPairs elements) [] fun pool parts =>
      ∀ levels, (Attribute.element (Attribute.elementValue pool levels)).TakesEach
        (ElementValue.levelsOfElements elements ≤ levels) parts
        (ElementValue.mentionsOfElements elements)
  | [], _ => .pure fun _ _ levels => TakesEach.nil.congr (iff_of_true trivial (Nat.zero_le levels))
  | (name, value) :: rest, fits => by
    refine (text fits.1).bind fun nameSlot => (elementValue value fits.2.1).bind fun bytes =>
      (elementPairs rest fits.2.2).map (_ :: ·) ?_
    rintro pool parts ⟨_, first⟩ others levels
    exact (TakesEach.cons (within_element (first levels) nameSlot) (others levels)).congr
      Nat.max_le.symm

end

/-! ### Annotations -/

theorem annotationBytes {spec : AnnotationSpec} (fits : spec.FieldsFit) :
    Writes before (Build.annotationBytes spec) [] fun pool bytes =>
      (Attribute.annotationBody pool (Attribute.elementValue pool maxLevels)).TakesWithin spec.Shallow
        bytes spec.mentions := by
  obtain ⟨fitsType, few, fitsElements⟩ := fits
  refine (text fitsType).bind fun slot => (elementPairs spec.elements fitsElements).map _ ?_
  rintro pool parts ⟨_, described⟩ found
  have items := found maxLevels
  refine within_annotationBody described items ?_
  rw [items.length_eq, ElementValue.length_mentionsOfElements]
  exact few

theorem annotations {list : List AnnotationSpec} (few : list.length ≤ 65535)
    (fits : ∀ spec ∈ list, spec.FieldsFit) :
    Writes before (Build.annotations list) [] fun pool bytes =>
      (Attribute.annotations pool).TakesWithin (∀ spec ∈ list, spec.Shallow) bytes
        (list.flatMap (·.mentions)) := by
  have parts := Writes.mapM before fun spec member => annotationBytes (fits spec member)
  refine (parts.map encodeTable ?_).congr (by simp)
  rintro pool parts _ found
  rw [List.flatMap_def]
  exact ((TakesEach.of_forall₂ found).table (found.length_eq ▸ few)).map List.flatten

/-! ### Rows -/

theorem handler {caught : Option String} (fits : ∀ name ∈ caught, FitsText name) :
    Writes before (Build.handler caught) (classMention caught) fun pool bytes =>
      (Attribute.handler pool).Takes bytes (classMention caught) := by
  refine (classRefOrZero fits).map _ ?_
  rintro pool slot _ found
  rw [List.append_assoc, List.append_assoc, ← List.append_nil (encode16 slot)]
  exact (Takes.bytes16 0).bind ((Takes.bytes16 1).bind ((Takes.bytes16 0).bind
    ((Takes.encode16 slot).bind (.lifted found))))

theorem innerClass {entry : String × Option String} (fits : FitsText entry.1)
    (fitsOuter : ∀ outer ∈ entry.2, FitsText outer) :
    Writes before (Build.innerClass entry) (.className entry.1 :: classMention entry.2)
      fun pool bytes => (Attribute.innerClass pool).Takes bytes
        (.className entry.1 :: classMention entry.2) := by
  refine (classRef fits).bind fun inner => (classRefOrZero fitsOuter).map _ ?_
  rintro pool outer ⟨_, positive, named⟩ outerFound
  have innerFound := classNameIfAny_of_className positive named
  rw [List.append_assoc, List.append_assoc, ← List.append_nil (bytes16 1)]
  exact (Takes.encode16 inner).bind ((Takes.encode16 outer).bind ((Takes.bytes16 0).bind
    ((Takes.bytes16 1).bind (.lift innerFound (.lift outerFound (.pure _))))))

/-- By induction on the rows, whatever slot of the frame they begin in. -/
theorem localRows {rows : List (String × String)}
    (fits : ∀ row ∈ rows, FitsText row.1 ∧ FitsText row.2) (number : Nat) :
    Writes before (Build.localRows number rows) [] fun pool parts =>
      List.Forall₂ (fun row part => (Attribute.localVariable pool).Takes part (.typeText row.2)) rows
        parts := by
  induction rows generalizing number before with
  | nil => exact .pure fun _ _ => .nil
  | cons row rows ih =>
    rw [List.forall_mem_cons] at fits
    refine (text fits.1.1).bind fun nameSlot => (text fits.1.2).bind fun descriptorSlot =>
      (ih fits.2 (number + 1)).map (_ :: ·) ?_
    rintro pool parts ⟨_, described⟩ others
    refine .cons ?_ others
    simp only [List.append_assoc]
    exact (Takes.bytes16 0).bind ((Takes.bytes16 1).bind ((Takes.encode16 nameSlot).bind
      ((Takes.encode16 descriptorSlot).bind
        ((Takes.bytes16 number).resolve described Mention.typeText))))

/-! ### Attributes that hold no others -/

end Writes

/-- Reads as a content if its values are shallow, whatever reader there is for method bodies. -/
def ReadsAs (pool : ConstantPool) (shallow : Prop) (bytes : List UInt8) (content : Content) : Prop :=
  bytes.length ≤ maxAttributeLength →
    ∀ body, (Attribute.entry pool body).TakesWithin shallow bytes content.facts

namespace Writes

/-- Whatever part of the payload its reader takes, the whole of it is passed over. -/
theorem passed {name : String} (fits : FitsText name) (used unused : List UInt8) :
    Writes before (Build.named name (used ++ unused)) [] fun pool bytes =>
      bytes.length ≤ maxAttributeLength → ∀ (body : Reader Facts) (room : Prop) (facts : Facts),
        (Attribute.payload pool body name).TakesWithin room used facts →
        (Attribute.entry pool body).TakesWithin room bytes facts := by
  refine (text fits).map _ ?_
  rintro pool slot _ found small body room facts inner
  -- The length is written modulo the width of its field, which it does not exceed.
  have length : (UInt32.ofNat (used ++ unused).length).toNat = (used ++ unused).length := by
    rw [UInt32.toNat_ofNat']
    simp only [encode16, bytes16, bytes32, maxAttributeLength, List.length_append,
      List.length_cons, List.length_nil] at small ⊢
    omega
  rw [List.append_assoc]
  refine .behind (.encode16 slot) (.behind (.bytes32 _) (.lift found ?_))
  rw [length]
  exact inner.within unused

theorem named {name : String} (fits : FitsText name) (payload : List UInt8) :
    Writes before (Build.named name payload) [] fun pool bytes =>
      bytes.length ≤ maxAttributeLength → ∀ (body : Reader Facts) (room : Prop) (facts : Facts),
        (Attribute.payload pool body name).TakesWithin room payload facts →
        (Attribute.entry pool body).TakesWithin room bytes facts := by
  have whole : Writes before (Build.named name (payload ++ [])) [] _ := passed fits payload []
  rwa [List.append_nil] at whole

private theorem payload_of_unrecognized {name : String} (unknown : name ∉ recognizedNames)
    (pool : ConstantPool) (body : Reader Facts) : Attribute.payload pool body name = pure .empty := by
  unfold Attribute.payload
  split
  case h_14 => rfl
  all_goals exact absurd (by decide) unknown

theorem raw {name : String} (fits : FitsText name) (unknown : name ∉ recognizedNames)
    (payload : List UInt8) :
    Writes before (Build.attributeOf (.raw name payload)) [] fun pool bytes =>
      ReadsAs pool True bytes {} := by
  refine (passed fits [] payload).imp ?_
  rintro pool bytes _ entry small body
  refine entry small body True _ ?_
  rw [payload_of_unrecognized unknown]
  exact .of_takes trivial (.pure Facts.empty)

theorem sourceFile {file : String} (fits : FitsText file) :
    Writes before (Build.attributeOf (.sourceFile file)) [] fun pool bytes =>
      ReadsAs pool True bytes { sourceFiles := [file] } := by
  refine (text fits).bind fun slot => (named (by decide) _).imp ?_
  rintro pool bytes ⟨_, found⟩ entry small body
  exact entry small body _ _ (.of_takes trivial
    ((Takes.encode16 slot).resolve found fun file => ({ sourceFile := some file } : Facts)))

theorem signature {value : String} (fits : FitsText value) :
    Writes before (Build.attributeOf (.signature value)) [] fun pool bytes =>
      ReadsAs pool True bytes (.mentioning [.typeText value]) := by
  refine (text fits).bind fun slot => (named (by decide) _).imp ?_
  rintro pool bytes ⟨_, found⟩ entry small body
  exact entry small body _ _ (.of_takes trivial
    ((takes_typeText found).map fun mention => Facts.mentioning [mention]))

theorem exceptions {classes : List String} (few : classes.length ≤ 65535)
    (fits : ∀ name ∈ classes, FitsText name) :
    Writes before (Build.attributeOf (.exceptions classes)) (classes.map .className)
      fun pool bytes => ReadsAs pool True bytes (.mentioning (classes.map .className)) := by
  have slots := Writes.mapM before fun name member => classRef (fits name member)
  refine (slots.bind fun slots => (named (by decide) _).imp ?_).congr
    (by simp [List.map_eq_flatMap])
  rintro pool bytes ⟨_, found⟩ entry small body
  refine entry small body _ _ (.of_takes trivial ((Takes.tableOf ?_ few).map Facts.mentioning))
  rw [List.forall₂_map_right_iff]
  exact found.imp fun _ _ named => takes_className named.2

theorem innerClasses {entries : List (String × Option String)} (few : entries.length ≤ 65535)
    (fits : ∀ entry ∈ entries, FitsText entry.1 ∧ ∀ outer ∈ entry.2, FitsText outer) :
    Writes before (Build.attributeOf (.innerClasses entries))
      (entries.flatMap fun entry => .className entry.1 :: classMention entry.2) fun pool bytes =>
        ReadsAs pool True bytes
          (.mentioning (entries.flatMap fun entry => .className entry.1 :: classMention entry.2)) := by
  have rows := Writes.mapM before fun entry member =>
    innerClass (fits entry member).1 (fits entry member).2
  refine (rows.bind fun rows => (named (by decide) _).imp ?_).congr (by simp)
  rintro pool bytes ⟨_, found⟩ entry small body
  refine entry small body _ _ (.of_takes trivial ?_)
  rw [List.flatMap_def]
  exact ((Takes.tableOf found few).map List.flatten).map Facts.mentioning

theorem enclosingClass {owner : String} (fits : FitsText owner) :
    Writes before (Build.attributeOf (.enclosingMethod owner none)) [.className owner]
      fun pool bytes => ReadsAs pool True bytes (.mentioning [.className owner]) := by
  refine (classRef fits).bind fun ownerSlot => (named (by decide) _).imp ?_
  rintro pool bytes ⟨_, _, owned⟩ entry small body
  have inner : (Attribute.enclosingMethod pool).Takes (encode16 ownerSlot ++ encode16 0)
      [.className owner] := by
    rw [← List.append_nil (encode16 0)]
    refine (Takes.encode16 ownerSlot).bind ((Takes.encode16 0).bind (.lift owned ?_))
    rw [if_pos rfl]
    exact .pure _
  exact entry small body _ _ (.of_takes trivial (inner.map Facts.mentioning))

theorem enclosingMethod {owner : String} {method : String × String} (fits : FitsText owner)
    (fitsMethod : FitsText method.1 ∧ FitsText method.2) :
    Writes before (Build.attributeOf (.enclosingMethod owner (some method)))
      [.className owner, .typeText method.2] fun pool bytes =>
        ReadsAs pool True bytes (.mentioning [.className owner, .typeText method.2]) := by
  refine (classRef fits).bind fun ownerSlot =>
    (nameAndType fitsMethod).bind fun methodSlot => (named (by decide) _).imp ?_
  rintro pool bytes ⟨⟨_, _, owned⟩, positive, _, described⟩ entry small body
  have inner : (Attribute.enclosingMethod pool).Takes
      (encode16 ownerSlot ++ encode16 methodSlot) [.className owner, .typeText method.2] := by
    rw [← List.append_nil (encode16 methodSlot)]
    refine (Takes.encode16 ownerSlot).bind ((Takes.encode16 methodSlot).bind (.lift owned ?_))
    rw [if_neg positive]
    exact .lift described (.pure _)
  exact entry small body _ _ (.of_takes trivial (inner.map Facts.mentioning))

theorem annotationList (visible : Bool) {list : List AnnotationSpec} (few : list.length ≤ 65535)
    (fits : ∀ spec ∈ list, spec.FieldsFit) :
    Writes before (Build.attributeOf (.annotations visible list)) [] fun pool bytes =>
      ReadsAs pool (∀ spec ∈ list, spec.Shallow) bytes
        (.mentioning (list.flatMap (·.mentions))) := by
  refine (annotations few fits).bind fun payload => (named ?_ _).imp ?_
  · split <;> decide
  · rintro pool bytes ⟨_, found⟩ entry small body
    refine entry small body _ _ ?_
    cases visible <;> exact found.map Facts.mentioning

theorem parameterAnnotations {parameters : List (List AnnotationSpec)}
    (few : parameters.length ≤ 255)
    (fits : ∀ list ∈ parameters, list.length ≤ 65535 ∧ ∀ spec ∈ list, spec.FieldsFit) :
    Writes before (Build.attributeOf (.parameterAnnotations parameters)) [] fun pool bytes =>
      ReadsAs pool (∀ list ∈ parameters, ∀ spec ∈ list, spec.Shallow) bytes
        (.mentioning (parameters.flatMap fun list => list.flatMap (·.mentions))) := by
  have parts := Writes.mapM before fun list member =>
    annotations (fits list member).1 (fits list member).2
  refine (parts.bind fun parts => (named (by decide) _).imp ?_).congr (by simp)
  rintro pool bytes ⟨_, found⟩ entry small body
  -- Unlike all other tables this one is counted by a single byte.
  have count : (UInt8.ofNat parameters.length).toNat = parts.length := by
    rw [UInt8.toNat_ofNat', ← found.length_eq]
    omega
  have items := (TakesEach.of_forall₂ found).times
  rw [← count] at items
  have inner : (Attribute.parameterAnnotations pool).TakesWithin
      (∀ list ∈ parameters, ∀ spec ∈ list, spec.Shallow)
      (.ofNat parameters.length :: parts.flatten)
      (parameters.map fun list => list.flatMap (·.mentions)).flatten :=
    .behind (.u8 _) (items.map List.flatten)
  refine entry small body _ _ ?_
  rw [List.flatMap_def]
  exact inner.map Facts.mentioning

theorem annotationDefault {value : ElementValue} (fits : value.Fits) :
    Writes before (Build.attributeOf (.annotationDefault value)) [] fun pool bytes =>
      ReadsAs pool (value.levels ≤ maxLevels) bytes (.mentioning value.mentions) := by
  refine (elementValue value fits).bind fun payload => (named (by decide) _).imp ?_
  rintro pool bytes ⟨_, found⟩ entry small body
  exact entry small body _ _ ((found maxLevels).map Facts.mentioning)

/-- The tables of local variables and of their signatures differ in their names alone. -/
private theorem localTable {name : String} (fitsName : FitsText name)
    (reader : ∀ pool body, Attribute.payload pool body name =
      Reader.table (Attribute.localVariable pool) >>= fun found => pure (Facts.mentioning found))
    {rows : List (String × String)} (few : rows.length ≤ 65535)
    (fits : ∀ row ∈ rows, FitsText row.1 ∧ FitsText row.2) :
    Writes before (Build.localRows 0 rows >>= fun parts => Build.named name (encodeTable parts)) []
      fun pool bytes => ReadsAs pool True bytes (.mentioning (rows.map fun row => .typeText row.2)) := by
  refine (localRows fits 0).bind fun parts => (named fitsName _).imp ?_
  rintro pool bytes ⟨_, found⟩ entry small body
  refine entry small body _ _ (.of_takes trivial ?_)
  rw [reader]
  exact (Takes.tableOf found few).map Facts.mentioning

end Writes

/-! ### What holds attributes -/

/-- Reads as what it says if its values are shallow, wherever so many method bodies may enclose one
another, and else stops. -/
def Written.ReadsIn (pool : ConstantPool) (shallow : Prop) (written : Written) : Prop :=
  ∀ levels, (Attribute.entry pool (Attribute.bodyWithin pool levels)).TakesWithin
    (shallow ∧ written.bodies ≤ levels) written.bytes written.content.facts

/-- The attributes read in order as these contents, with as many bodies as the deepest takes. -/
def ReadInOrder (pool : ConstantPool) (shallow : Prop) (bodies : Nat) (contents : List Content)
    (parts : List (List UInt8)) : Prop :=
  ∀ levels, (Attribute.entry pool (Attribute.bodyWithin pool levels)).TakesEach
    (shallow ∧ bodies ≤ levels) parts (contents.map Content.facts)

namespace ReadInOrder

variable {pool : ConstantPool} {shallow others : Prop} {bodies fewer : Nat} {content : Content}
  {contents : List Content} {bytes : List UInt8} {parts : List (List UInt8)}

theorem nil : ReadInOrder pool True 0 [] [] :=
  fun levels => TakesEach.nil.congr (by simp)

theorem cons (first : Written.ReadsIn pool shallow ⟨bytes, content, fewer⟩)
    (rest : ReadInOrder pool others bodies contents parts) :
    ReadInOrder pool (shallow ∧ others) (max fewer bodies) (content :: contents) (bytes :: parts) :=
  fun levels => (TakesEach.cons (first levels) (rest levels)).congr (by
    rw [Nat.max_le, and_and_and_comm])

theorem within_table (readable : ReadInOrder pool shallow bodies contents parts)
    (few : contents.length ≤ 65535) (levels : Nat) :
    (Attribute.tableWithin pool levels).TakesWithin (shallow ∧ bodies ≤ levels) (encodeTable parts)
      (Content.join contents).facts := by
  have items := readable levels
  rw [Content.facts_join]
  refine (items.table ?_).map Facts.concat
  rw [items.length_eq, List.length_map]
  exact few

end ReadInOrder

theorem readInOrder_of_written {pool : ConstantPool} {attributes : List Written}
    (readable : ∀ written ∈ attributes, written.ReadsIn pool True) :
    ReadInOrder pool True (Written.bodiesOf attributes) (attributes.map (·.content))
      (attributes.map (·.bytes)) := by
  induction attributes with
  | nil => exact .nil
  | cons first rest ih =>
    rw [List.forall_mem_cons] at readable
    have both := ReadInOrder.cons readable.1 (ih readable.2)
    rwa [true_and] at both

namespace Build

theorem length_named (name : String) (payload : List UInt8) (builder : PoolBuilder) :
    ((Build.named name payload).run builder).1.length = payload.length + 6 := by
  change (encode16 _ ++ bytes32 payload.length ++ payload).length = payload.length + 6
  simp only [encode16, bytes16, bytes32, List.length_append, List.length_cons, List.length_nil]
  omega

end Build

namespace Writes

variable {before : ConstantPool → Prop}

theorem code {handlers : List (Option String)} {contents : List Content}
    {parts : List (List UInt8)} {shallow : Prop} {bodies : Nat}
    (fewHandlers : handlers.length ≤ 65535)
    (fits : ∀ caught ∈ handlers, ∀ name ∈ caught, FitsText name)
    (few : contents.length ≤ 65535)
    (readable : ∀ pool, before pool → (∀ part ∈ parts, part.length ≤ maxAttributeLength) →
      ReadInOrder pool shallow bodies contents parts) :
    Writes before (Build.code handlers parts) (handlers.flatMap classMention)
      fun pool bytes => bytes.length ≤ maxAttributeLength →
        Written.ReadsIn pool shallow ⟨bytes, codeContent handlers contents, bodies + 1⟩ := by
  have rows := Writes.mapM before fun caught member => handler (fits caught member)
  refine (rows.bind fun rows =>
    ((named (by decide) _).answers (fun bytes => bytes.length = _) (Build.length_named "Code" _)).imp
      ?_).congr (by simp)
  rintro pool bytes ⟨here, found⟩ ⟨length, entry⟩ small (_ | levels)
  · -- A body that has no level left is not looked into.
    exact entry small _ _ _ (.of_stops (by simp) (fun offset rest => ⟨offset, rfl⟩) _)
  -- The attributes within are no longer than the body, whose length fits its field.
  have smallParts : ∀ part ∈ parts, part.length ≤ maxAttributeLength := by
    intro part member
    have inside := (List.sublist_flatten_of_mem member).length_le
    simp only [List.length_append, encodeTable] at length
    omega
  refine entry small _ _ _ ?_
  -- The body is a single return.
  have one : (UInt32.ofNat 1).toNat = [(0xB1 : UInt8)].length := rfl
  simp only [List.append_assoc]
  refine .behind (.bytes16 1) (.behind (.bytes16 1) (.behind (.bytes32 1) ?_))
  rw [one]
  refine .behind ((Takes.ofBytes [0xB1]).map fun _ => ()) (.behind (Takes.tableOf found fewHandlers) ?_)
  rw [codeContent, Content.facts_append, List.flatMap_def]
  have nested := (readable pool here smallParts).within_table few levels
  exact (nested.map _).congr (and_congr_right' Nat.succ_le_succ_iff.symm)

private theorem withoutBodies {part : Build (List UInt8)} {created : List Mention}
    {shallow : Prop} {content : Content}
    (writes : Writes before part created fun pool bytes => ReadsAs pool shallow bytes content) :
    Writes before part created fun pool bytes => bytes.length ≤ maxAttributeLength →
      Written.ReadsIn pool shallow ⟨bytes, content, 0⟩ :=
  writes.imp fun _ _ _ reads small levels =>
    (reads small _).congr (and_iff_left (Nat.zero_le levels)).symm

mutual

theorem attributeOf {before : ConstantPool → Prop} : (spec : AttributeSpec) → spec.FieldsFit →
    Writes before (Build.attributeOf spec) spec.created fun pool bytes =>
      bytes.length ≤ maxAttributeLength →
        Written.ReadsIn pool spec.ValuesShallow ⟨bytes, spec.content, spec.bodies⟩
  | .raw _ payload, fits => withoutBodies (raw fits.1 fits.2 payload)
  | .sourceFile _, fits => withoutBodies (sourceFile fits)
  | .signature _, fits => withoutBodies (signature fits)
  | .exceptions _, fits => withoutBodies (exceptions fits.1 fits.2)
  | .innerClasses _, fits => withoutBodies (innerClasses fits.1 fits.2)
  | .enclosingMethod _ none, fits => withoutBodies (enclosingClass fits.1)
  | .enclosingMethod _ (some method), fits =>
    withoutBodies (enclosingMethod fits.1 (fits.2 method rfl))
  | .annotations visible _, fits => withoutBodies (annotationList visible fits.1 fits.2)
  | .parameterAnnotations _, fits => withoutBodies (parameterAnnotations fits.1 fits.2)
  | .annotationDefault _, fits => withoutBodies (annotationDefault fits)
  | .localVariables _, fits =>
    withoutBodies (localTable (by decide) (fun _ _ => rfl) fits.1 fits.2)
  | .localVariableTypes _, fits =>
    withoutBodies (localTable (by decide) (fun _ _ => rfl) fits.1 fits.2)
  | .code _ nested, ⟨fewHandlers, fitsHandlers, few, fitsNested⟩ =>
    (attributesOf nested fitsNested).bind fun _ => code fewHandlers fitsHandlers
      (by rwa [AttributeSpec.length_contentsOfSpecs]) fun _ both => both.2

theorem attributesOf {before : ConstantPool → Prop} : (specs : List AttributeSpec) →
    AttributeSpec.SpecsFieldsFit specs →
    Writes before (Build.attributesOf specs) (AttributeSpec.createdOfSpecs specs) fun pool parts =>
      (∀ part ∈ parts, part.length ≤ maxAttributeLength) →
        ReadInOrder pool (AttributeSpec.SpecsShallow specs) (AttributeSpec.bodiesOfSpecs specs)
          (AttributeSpec.contentsOfSpecs specs) parts
  | [], _ => .pure fun _ _ _ => .nil
  | spec :: rest, fits => by
    refine (attributeOf spec fits.1).bind fun bytes =>
      (attributesOf rest fits.2).map (bytes :: ·) ?_
    rintro pool parts ⟨_, first⟩ others small
    rw [List.forall_mem_cons] at small
    exact .cons (first small.1) (others small.2)

end

theorem member {name descriptor : String} (fits : FitsText name) (fitsDescriptor : FitsText descriptor)
    (parts : List (List UInt8)) :
    Writes before (Build.member name descriptor parts) [] fun pool bytes =>
      ∀ {shallow : Prop} {bodies : Nat} {contents : List Content}, contents.length ≤ 65535 →
        ReadInOrder pool shallow bodies contents parts →
        (ClassFile.member pool).TakesWithin (shallow ∧ bodies ≤ maxLevels) bytes
          (memberContent descriptor contents).facts := by
  refine (text fits).bind fun nameSlot => (text fitsDescriptor).map _ ?_
  rintro pool descriptorSlot - described shallow bodies contents few readable
  rw [memberContent, Content.facts_append]
  simp only [List.append_assoc]
  exact .behind (.bytes16 1) (.behind (.encode16 nameSlot) (.behind (takes_typeText described)
    ((readable.within_table few maxLevels).map _)))

end Writes

end PackageAudit.ClassFile
