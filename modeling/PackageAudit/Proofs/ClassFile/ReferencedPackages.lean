import Mathlib
import PackageAudit.Proofs.ClassFile.FileRecognition
/-!
The packages a class refers to.

Reading finds mentions of types in two ways: it looks up class constants and descriptors of members,
which the constants say by themselves, and it meets the descriptors and signatures that stand in
structures. So the packages of a record are those of the constants, used or not, and of the texts in
the structures, but for its own.
-/

namespace PackageAudit.ClassFile

/-- The types that some constant mentions by itself, be it used by a structure or not. -/
inductive ConstantMentions (constants : List Constant) : Mention → Prop
  | classRef {number : Nat} {slot : UInt16} {name : String}
    (stands : StandsAt constants number (.classRef slot)) (named : TextAt constants slot name) :
    ConstantMentions constants (.className name)
  | nameAndType {number : Nat} {name slot : UInt16} {descriptor : String}
    (stands : StandsAt constants number (.nameAndType name slot))
    (described : TextAt constants slot descriptor) :
    ConstantMentions constants (.typeText descriptor)
  | methodType {number : Nat} {slot : UInt16} {descriptor : String}
    (stands : StandsAt constants number (.methodType slot))
    (described : TextAt constants slot descriptor) :
    ConstantMentions constants (.typeText descriptor)

/-- A package that a class file refers to: that of a class constant, that of a type in a descriptor
constant, or that of a type in a text of its structures. -/
inductive FileTree.RefersTo (file : FileTree) : String → Prop
  | classConstant {number : Nat} {slot : UInt16} {name : String}
    (stands : StandsAt file.constants number (.classRef slot))
    (named : TextAt file.constants slot name) (plain : name.toList.head? ≠ some '[') :
    RefersTo file (packageOfInternal name)
  | arrayConstant {number : Nat} {slot : UInt16} {name type : String}
    (stands : StandsAt file.constants number (.classRef slot))
    (named : TextAt file.constants slot name) (array : name.toList.head? = some '[')
    (reported : type ∈ Signature.classNames name) : RefersTo file (packageOfInternal type)
  | nameAndType {number : Nat} {name slot : UInt16} {descriptor type : String}
    (stands : StandsAt file.constants number (.nameAndType name slot))
    (described : TextAt file.constants slot descriptor)
    (reported : type ∈ Signature.classNames descriptor) : RefersTo file (packageOfInternal type)
  | methodType {number : Nat} {slot : UInt16} {descriptor type : String}
    (stands : StandsAt file.constants number (.methodType slot))
    (described : TextAt file.constants slot descriptor)
    (reported : type ∈ Signature.classNames descriptor) : RefersTo file (packageOfInternal type)
  | structureText {text type : String} (standing : text ∈ file.body.typeTexts)
    (reported : type ∈ Signature.classNames text) : RefersTo file (packageOfInternal type)

/-! ### What reading finds in structures -/

section Structures

variable {constants : List Constant}

theorem TextRef.textAt (reference : TextRef constants) :
    TextAt constants reference.slot reference.text :=
  reference.stands

theorem ClassRef.mentioned (reference : ClassRef constants) :
    ConstantMentions constants reference.mention :=
  .classRef reference.stands reference.name.textAt

theorem MemberRef.mentioned (reference : MemberRef constants) :
    ConstantMentions constants reference.descriptor.mention :=
  .nameAndType reference.stands reference.descriptor.textAt

theorem mentioned_of_mem_classMentions {reference : Option (ClassRef constants)} {mention : Mention}
    (member : mention ∈ classMentions reference) : ConstantMentions constants mention := by
  obtain ⟨held, _, rfl⟩ := List.mem_map.mp member
  exact held.mentioned

theorem Facts.mentions_concat (parts : List Facts) :
    (Facts.concat parts).mentions = parts.flatMap (·.mentions) := by
  induction parts with
  | nil => rfl
  | cons part parts ih =>
    rw [List.flatMap_cons, ← ih]
    rfl

/-- Facts that mention these texts, and besides them only what the constants mention. -/
structure Facts.Hold (constants : List Constant) (facts : Facts) (texts : List String) : Prop where
  all : ∀ text ∈ texts, .typeText text ∈ facts.mentions
  only : ∀ mention ∈ facts.mentions,
    (∃ text ∈ texts, mention = .typeText text) ∨ ConstantMentions constants mention

namespace Facts.Hold

variable {facts others : Facts} {texts more : List String}

theorem empty : Facts.Hold constants {} [] := ⟨nofun, nofun⟩

theorem ofTexts (texts : List String) :
    (Facts.mentioning (texts.map .typeText)).Hold constants texts where
  all text member := List.mem_map_of_mem member
  only mention member := by
    obtain ⟨text, held, rfl⟩ := List.mem_map.mp member
    exact .inl ⟨text, held, rfl⟩

theorem ofConstants {mentions : List Mention}
    (mentioned : ∀ mention ∈ mentions, ConstantMentions constants mention) :
    (Facts.mentioning mentions).Hold constants [] where
  all := nofun
  only mention member := .inr (mentioned mention member)

theorem append (first : facts.Hold constants texts) (second : others.Hold constants more) :
    (facts.append others).Hold constants (texts ++ more) where
  all text member := by
    rcases List.mem_append.mp member with here | behind
    · exact List.mem_append_left _ (first.all text here)
    · exact List.mem_append_right _ (second.all text behind)
  only mention member := by
    rcases List.mem_append.mp member with here | behind
    · rcases first.only mention here with ⟨text, held, same⟩ | mentioned
      · exact .inl ⟨text, List.mem_append_left _ held, same⟩
      · exact .inr mentioned
    · rcases second.only mention behind with ⟨text, held, same⟩ | mentioned
      · exact .inl ⟨text, List.mem_append_right _ held, same⟩
      · exact .inr mentioned

theorem concat {τ : Type} {items : List τ} {said : τ → Facts} {texts : τ → List String}
    (each : ∀ item ∈ items, (said item).Hold constants (texts item)) :
    (Facts.concat (items.map said)).Hold constants (items.flatMap texts) := by
  induction items with
  | nil => exact empty
  | cons item items ih =>
    rw [List.forall_mem_cons] at each
    exact each.1.append (ih each.2)

theorem concat_append {parts behind : List Facts}
    (first : (Facts.concat parts).Hold constants texts)
    (second : (Facts.concat behind).Hold constants more) :
    (Facts.concat (parts ++ behind)).Hold constants (texts ++ more) := by
  have same : (Facts.concat (parts ++ behind)).mentions =
      ((Facts.concat parts).append (Facts.concat behind)).mentions := by
    simp only [Facts.append, mentions_concat, List.flatMap_append]
  have both := first.append second
  exact ⟨same ▸ both.all, same ▸ both.only⟩

end Facts.Hold

theorem Payload.hold {β : Type} {kind : AttributeKind} {said : β → Facts} {texts : β → List String}
    (inner : ∀ body, (said body).Hold constants (texts body)) (payload : Payload constants β kind) :
    (payload.facts said).Hold constants (payload.typeTexts texts) := by
  cases payload with
  | sourceFile file => exact ⟨nofun, nofun⟩
  | signature type => exact .ofTexts [type.text]
  | exceptions classes =>
    refine .ofConstants fun mention member => ?_
    obtain ⟨reference, _, rfl⟩ := List.mem_map.mp member
    exact reference.mentioned
  | innerClasses rows =>
    refine .ofConstants fun mention member => ?_
    obtain ⟨row, _, inRow⟩ := List.mem_flatMap.mp member
    rcases List.mem_append.mp inRow with inside | outside
    · exact mentioned_of_mem_classMentions inside
    · exact mentioned_of_mem_classMentions outside
  | enclosingMethod row =>
    -- The descriptor of the method is that of a constant and stands in no text of its own.
    refine .ofConstants fun mention member => ?_
    rcases List.mem_cons.mp member with rfl | ofMethod
    · exact row.owner.mentioned
    · obtain ⟨method, _, rfl⟩ := List.mem_map.mp ofMethod
      exact method.mentioned
  | annotations list => exact .ofTexts _
  | parameterAnnotations parameters few => exact .ofTexts _
  | annotationDefault value => exact .ofTexts _
  | code body => exact inner body
  | localVariables rows =>
    have texts : (Facts.mentioning ((rows.items.map (·.type.text)).map .typeText)).Hold constants
        (rows.items.map (·.type.text)) := .ofTexts _
    rw [List.map_map] at texts
    exact texts
  | unrecognized => exact .empty

theorem CodeOf.hold {τ : Type} {said : τ → Facts} {texts : τ → List String}
    (inner : ∀ item, (said item).Hold constants (texts item)) (code : CodeOf constants τ) :
    (code.facts said).Hold constants (code.typeTexts texts) := by
  have handlers : (Facts.mentioning
      (code.handlers.items.flatMap fun row => classMentions row.caught)).Hold constants [] := by
    refine .ofConstants fun mention member => ?_
    obtain ⟨row, _, inRow⟩ := List.mem_flatMap.mp member
    exact mentioned_of_mem_classMentions inRow
  exact handlers.append (.concat fun item _ => inner item)

/-- By induction on the method bodies that may enclose one another. -/
theorem bodyFacts_hold (levels : Nat) (tree : (bodySyntax constants levels).Tree) :
    (bodyFacts levels tree).Hold constants (bodyTypeTexts levels tree) := by
  induction levels with
  | zero => exact tree.elim
  | succ levels ih => exact CodeOf.hold (fun item => item.payload.hold ih) tree

theorem AttributeTree.hold (tree : AttributeTree constants) :
    (AttributeTree.facts tree).Hold constants (AttributeTree.typeTexts tree) :=
  tree.payload.hold (bodyFacts_hold maxLevels)

theorem MemberTree.hold (member : MemberTree constants) :
    member.facts.Hold constants member.typeTexts :=
  (Facts.Hold.ofTexts [member.descriptor.text]).append (.concat fun item _ => AttributeTree.hold item)

theorem ClassTree.hold (tree : ClassTree constants) {found : List Mention}
    (mentioned : ∀ mention ∈ found, ConstantMentions constants mention) :
    (tree.facts found).Hold constants tree.typeTexts := by
  have classes : (Facts.mentioning (tree.thisClass.mention :: classMentions tree.superclass ++
      tree.interfaces.items.map ClassRef.mention)).Hold constants [] := by
    refine .ofConstants fun mention member => ?_
    rcases List.mem_append.mp member with ofClass | ofInterface
    · rcases List.mem_cons.mp ofClass with rfl | ofSuper
      · exact tree.thisClass.mentioned
      · exact mentioned_of_mem_classMentions ofSuper
    · obtain ⟨reference, _, rfl⟩ := List.mem_map.mp ofInterface
      exact reference.mentioned
  have header : (Facts.concat [.mentioning (tree.thisClass.mention :: classMentions tree.superclass ++
      tree.interfaces.items.map ClassRef.mention)]).Hold constants [] := classes.append .empty
  have fields : (Facts.concat (tree.fields.items.map MemberTree.facts)).Hold constants _ :=
    .concat fun member _ => member.hold
  have methods : (Facts.concat (tree.methods.items.map MemberTree.facts)).Hold constants _ :=
    .concat fun member _ => member.hold
  have attributes : (tree.attributes.facts AttributeTree.facts).Hold constants _ :=
    .concat fun item _ => AttributeTree.hold item
  have last : (Facts.concat [tree.attributes.facts AttributeTree.facts,
      .mentioning found]).Hold constants _ :=
    attributes.append ((Facts.Hold.ofConstants mentioned).append .empty)
  rw [List.append_nil, List.append_nil] at last
  exact ((header.concat_append fields).concat_append methods).concat_append last

end Structures

/-! ### What the constants say -/

/-- Every constant that mentions a type is found, be it used or not. -/
theorem FileTree.exists_mentions (file : FileTree) :
    ∃ found, file.pool.mentions = .ok found ∧
      ∀ mention, mention ∈ found ↔ ConstantMentions file.constants mention := by
  have checked : file.pool.checkReferences = .ok () :=
    (ConstantPool.checkReferences_declaring_ok file.declares).mpr file.met
  obtain ⟨found, mentioned, same⟩ := ConstantPool.mentions_of_checked checked
  have held := ConstantPool.mem_slots_declaring file.declares
  refine ⟨found, mentioned, fun mention => (same mention).trans ?_⟩
  constructor
  · rintro ⟨constant, member, mentions⟩
    obtain ⟨number, stands⟩ := (held constant).mp member
    cases constant with
    | classRef slot =>
      obtain ⟨name, read, rfl⟩ := mentions
      exact .classRef stands ((file.lists.textAt_iff _ _).mp read)
    | nameAndType name slot =>
      obtain ⟨descriptor, read, rfl⟩ := mentions
      exact .nameAndType stands ((file.lists.textAt_iff _ _).mp read)
    | methodType slot =>
      obtain ⟨descriptor, read, rfl⟩ := mentions
      exact .methodType stands ((file.lists.textAt_iff _ _).mp read)
    | _ => exact mentions.elim
  · rintro (⟨stands, text⟩ | ⟨stands, text⟩ | ⟨stands, text⟩)
    all_goals exact ⟨_, (held _).mpr ⟨_, stands⟩, _, (file.lists.textAt_iff _ _).mpr text, rfl⟩

/-! ### Packages -/

theorem packages_className (name package : String) :
    package ∈ (Mention.className name).packages ↔
      (name.toList.head? ≠ some '[' ∧ package = packageOfInternal name) ∨
        (name.toList.head? = some '[' ∧
          ∃ type ∈ Signature.classNames name, packageOfInternal type = package) := by
  rw [Mention.packages]
  split
  next array => simp [array]
  next plain => simp [plain]

theorem packages_typeText (text package : String) :
    package ∈ (Mention.typeText text).packages ↔
      ∃ type ∈ Signature.classNames text, packageOfInternal type = package := by
  simp [Mention.packages]

/-- What a file refers to are the packages of what its constants mention and of its texts. -/
theorem FileTree.refersTo_iff (file : FileTree) (package : String) :
    file.RefersTo package ↔ ∃ mention, package ∈ mention.packages ∧
      (ConstantMentions file.constants mention ∨
        ∃ text ∈ file.body.typeTexts, mention = .typeText text) := by
  constructor
  · rintro (⟨stands, named, plain⟩ | ⟨stands, named, array, reported⟩ |
      ⟨stands, described, reported⟩ | ⟨stands, described, reported⟩ | ⟨standing, reported⟩)
    · exact ⟨_, (packages_className _ _).mpr (.inl ⟨plain, rfl⟩), .inl (.classRef stands named)⟩
    · exact ⟨_, (packages_className _ _).mpr (.inr ⟨array, _, reported, rfl⟩),
        .inl (.classRef stands named)⟩
    · exact ⟨_, (packages_typeText _ _).mpr ⟨_, reported, rfl⟩,
        .inl (.nameAndType stands described)⟩
    · exact ⟨_, (packages_typeText _ _).mpr ⟨_, reported, rfl⟩, .inl (.methodType stands described)⟩
    · exact ⟨_, (packages_typeText _ _).mpr ⟨_, reported, rfl⟩, .inr ⟨_, standing, rfl⟩⟩
  · rintro ⟨mention, member, mentioned | ⟨text, standing, rfl⟩⟩
    · cases mentioned with
      | classRef stands named =>
        rcases (packages_className _ _).mp member with ⟨plain, rfl⟩ | ⟨array, _, reported, rfl⟩
        · exact .classConstant stands named plain
        · exact .arrayConstant stands named array reported
      | nameAndType stands described =>
        obtain ⟨_, reported, rfl⟩ := (packages_typeText _ _).mp member
        exact .nameAndType stands described reported
      | methodType stands described =>
        obtain ⟨_, reported, rfl⟩ := (packages_typeText _ _).mp member
        exact .methodType stands described reported
    · obtain ⟨_, reported, rfl⟩ := (packages_typeText _ _).mp member
      exact .structureText standing reported

/-- The record of a file lists the packages it refers to, but for its own. -/
theorem FileTree.mem_referencedPackages (file : FileTree) {found : List Mention}
    (swept : ∀ mention, mention ∈ found ↔ ConstantMentions file.constants mention)
    (package : String) :
    package ∈ (file.body.record found).referencedPackages ↔
      package ≠ (file.body.record found).packageName ∧ file.RefersTo package := by
  have hold := file.body.hold fun mention member => (swept mention).mp member
  -- What the constants say comes last, so none of it is lost to the structures.
  have last : found ⊆ (file.body.facts found).mentions := by
    intro mention member
    simp only [ClassTree.facts, Facts.mentions_concat, List.mem_flatMap, List.mem_append]
    exact ⟨.mentioning found, .inr (.tail _ (.head _)), member⟩
  have mentions (mention : Mention) : mention ∈ (file.body.facts found).mentions ↔
      ConstantMentions file.constants mention ∨
        ∃ text ∈ file.body.typeTexts, mention = .typeText text := by
    constructor
    · exact fun member => (hold.only mention member).symm
    · rintro (mentioned | ⟨text, standing, rfl⟩)
      · exact last ((swept mention).mpr mentioned)
      · exact hold.all text standing
  rw [ClassTree.record, ClassRecord.mem_referencedPackages_ofReferences,
    ClassRecord.packageName_ofReferences, List.mem_flatMap, file.refersTo_iff]
  simp only [mentions, and_comm]

theorem decode_eq_ok_iff {bytes : List UInt8} {record : ClassRecord} :
    decode bytes = .ok record ↔ ∃ after, readClass ⟨0, bytes⟩ = .ok (record, after) := by
  unfold decode
  cases read : readClass ⟨0, bytes⟩ with
  | ok result => simp [Except.map, Prod.ext_iff]
  | error error => simp [Except.map]

theorem FileTree.exists_of_decode {bytes : List UInt8} {record : ClassRecord}
    (decoded : decode bytes = .ok record) :
    ∃ (file : FileTree) (rest : List UInt8), bytes = file.encode ++ rest := by
  obtain ⟨after, read⟩ := decode_eq_ok_iff.mp decoded
  obtain ⟨_, ⟨file, _, rfl, _, _⟩, split⟩ := readClass_recognizes.only read
  exact ⟨file, after.rest, split⟩

/-- The bytes of a file are read in one way only. -/
theorem FileTree.record_of_decode (file : FileTree) {rest : List UInt8} {record : ClassRecord}
    (decoded : decode (file.encode ++ rest) = .ok record) :
    ∃ found, (∀ mention, mention ∈ found ↔ ConstantMentions file.constants mention) ∧
      record = file.body.record found := by
  obtain ⟨after, read⟩ := decode_eq_ok_iff.mp decoded
  obtain ⟨found, mentioned, swept⟩ := file.exists_mentions
  have again := readClass_recognizes.takes ⟨file, found, rfl, mentioned, rfl⟩ 0 rest
  rw [again] at read
  cases read
  exact ⟨found, swept, rfl⟩

/-- A file that decodes begins with a class file of the syntax, and of whichever it begins with, the
record lists the packages that it refers to, all of them and no others, but for its own. -/
theorem decode_referencedPackages {bytes : List UInt8} {record : ClassRecord}
    (decoded : decode bytes = .ok record) :
    (∃ (file : FileTree) (rest : List UInt8), bytes = file.encode ++ rest) ∧
      ∀ (file : FileTree) (rest : List UInt8), bytes = file.encode ++ rest →
        (∀ package, file.RefersTo package →
          package ∈ record.referencedPackages ∨ package = record.packageName) ∧
        (∀ package ∈ record.referencedPackages, file.RefersTo package) ∧
        record.packageName ∉ record.referencedPackages := by
  obtain ⟨after, read⟩ := decode_eq_ok_iff.mp decoded
  constructor
  · obtain ⟨_, ⟨file, _, rfl, _, _⟩, split⟩ := readClass_recognizes.only read
    exact ⟨file, after.rest, split⟩
  rintro file rest rfl
  obtain ⟨found, mentioned, swept⟩ := file.exists_mentions
  -- The bytes of a file are read in one way only.
  have again := readClass_recognizes.takes ⟨file, found, rfl, mentioned, rfl⟩ 0 rest
  rw [again] at read
  cases read
  have referenced := file.mem_referencedPackages swept
  refine ⟨fun package refers => ?_, fun package member => ((referenced package).mp member).2,
    fun member => ((referenced _).mp member).1 rfl⟩
  by_cases own : package = (file.body.record found).packageName
  · exact .inr own
  · exact .inl ((referenced package).mpr ⟨own, refers⟩)

set_option maxRecDepth 4000 in
/-- A field of another package, in a class that some bytes follow. -/
theorem decode_referencedPackages_of_field :
    let bytes : List UInt8 := [0xCA, 0xFE, 0xBA, 0xBE, 0, 0, 0, 52, 0, 4, 1, 0, 3, 97, 47, 66, 7, 0, 1,
      1, 0, 5, 76, 99, 47, 68, 59, 0, 1, 0, 2, 0, 0, 0, 0, 0, 1, 0, 2, 0, 1, 0, 3, 0, 0, 0, 0, 0, 0, 7]
    decode bytes = .ok (.ofReferences "a.B" none false ["a", "c", "a"]) ∧
      ∃ (file : FileTree) (rest : List UInt8), bytes = file.encode ++ rest ∧ file.RefersTo "c" ∧
        (ClassRecord.ofReferences "a.B" none false ["a", "c", "a"]).packageName ∉
          (ClassRecord.ofReferences "a.B" none false ["a", "c", "a"]).referencedPackages := by
  intro bytes
  have decoded : decode bytes = .ok (.ofReferences "a.B" none false ["a", "c", "a"]) := by cbv
  obtain ⟨⟨file, rest, split⟩, each⟩ := decode_referencedPackages decoded
  obtain ⟨_, sound, own⟩ := each file rest split
  have listed : "c" ∈ (ClassRecord.ofReferences "a.B" none false ["a", "c", "a"]).referencedPackages := by
    rw [ClassRecord.mem_referencedPackages_ofReferences]
    decide +kernel
  exact ⟨decoded, file, rest, split, sound "c" listed, own⟩

end PackageAudit.ClassFile
