import PackageAudit.Proofs.ClassFile.Crafted
import PackageAudit.Proofs.ClassFile.WrittenAttributes
/-!
What is built decodes to what was built.

The invariant of building is that every part already written reads as outlined in every pool that goes
on behind the one at hand, so no later call can spoil an earlier one. At the end the parts stand where
the decoder looks for them, and the pool answers the types that the calls for constants mentioned. What
nests too deep stands there as well, and the invariant says for each of the three tables of a class whether
there is room for what nests in it.
-/

namespace PackageAudit.ClassFile

open Reader ConstantPool

/-- Whether there is room for all that nests in the fields, in the methods and in the attributes of a class. -/
structure Room where
  fields : Prop := True
  methods : Prop := True
  attributes : Prop := True

def Room.All (room : Room) : Prop := room.fields ∧ room.methods ∧ room.attributes

/-- Every part of the class file reads as outlined, as far as there is room. -/
structure Faithful (name : String) (builder : ClassBuilder) (written : List Written)
    (outline : Outline) (room : Room) (pool : ConstantPool) : Prop where
  magic : builder.magic = 0xCAFEBABE
  access : builder.access = outline.access
  thisClass : pool.className builder.thisClass = .ok name
  superClass : ∃ parent,
    Attribute.classNameIfAny pool builder.superClass = .ok (classMention parent)
  interfaces : ∃ parents,
    List.Forall₂ (fun parent slot => pool.className slot = .ok parent) parents builder.interfaces
  fields : (member pool).TakesEach room.fields builder.fields (outline.fields.map Content.facts)
  methods : (member pool).TakesEach room.methods builder.methods (outline.methods.map Content.facts)
  attributes : (Attribute.entry pool (Attribute.bodyWithin pool maxLevels)).TakesEach room.attributes
    builder.attributes (outline.attributes.map Content.facts)
  written : ∀ one ∈ written, one.ReadsIn pool True

theorem Faithful.readInOrder {name : String} {builder : ClassBuilder} {written : List Written}
    {outline : Outline} {room : Room} {pool : ConstantPool}
    (faithful : Faithful name builder written outline room pool)
    {attributes : List Written} (known : attributes ⊆ written) :
    ReadInOrder pool True (Written.bodiesOf attributes) (attributes.map (·.content))
      (attributes.map (·.bytes)) :=
  readInOrder_of_written fun one member => faithful.written one (known member)

/-- The invariant of building. -/
def Stands (name : String) (builder : ClassBuilder) (written : List Written) (outline : Outline)
    (room : Room) : Prop :=
  ∃ constants, Assembled builder.pool constants outline.created ∧
    ∀ pool : ConstantPool, pool.Includes (ofConstants constants) →
      Faithful name builder written outline room pool

section Invariant

variable {name : String} {builder : ClassBuilder} {written : List Written} {outline : Outline}
  {room : Room}

/-- What was faithful stays so when the pool grows, so only what is new needs to be looked at. -/
theorem Stands.write {α : Type} {part : Build α} {change : α → ClassBuilder → ClassBuilder}
    {mentions : List Mention} {found : ConstantPool → α → Prop} {writtenAfter : List Written}
    {outlineAfter : Outline} {roomAfter : Room}
    (stands : builder.pool.nextSlot ≤ 65535 → Stands name builder written outline room)
    (few : (ClassBuilder.write part change builder).2.pool.nextSlot ≤ 65535)
    (samePool : (ClassBuilder.write part change builder).2.pool = (part.run builder.pool).2)
    (writes : Writes (Faithful name builder written outline room) part mentions found)
    (created : outlineAfter.created = outline.created ++ mentions)
    (faithful : ∀ pool, Faithful name builder written outline room pool →
      found pool (part.run builder.pool).1 →
      Faithful name (ClassBuilder.write part change builder).2 writtenAfter outlineAfter roomAfter
        pool) :
    Stands name (ClassBuilder.write part change builder).2 writtenAfter outlineAfter roomAfter := by
  rw [samePool] at few
  -- What the calls before left behind is the condition under which the part is written.
  obtain ⟨constants, assembled, before⟩ := stands (Nat.le_trans (writes.grows _) few)
  obtain ⟨more, last, both⟩ :=
    (writes.imp fun pool value here new => And.intro here new).holds assembled few before
  refine ⟨constants ++ more, ?_, fun pool includes => ?_⟩
  · rw [samePool, created]
    exact last
  · exact faithful pool (both pool includes).1 (both pool includes).2

theorem Stands.ofName (fits : FitsText name)
    (few : (ClassBuilder.ofName name).pool.nextSlot ≤ 65535) :
    Stands name (.ofName name) [] (.ofName name) {} := by
  have writes : Writes (fun _ => True)
      (Build.classRef name >>= fun this => Build.classRef "java/lang/Object" >>= fun parent =>
        pure (this, parent)) [.className name, .className "java/lang/Object"]
      fun pool slots => pool.className slots.1 = .ok name ∧ slots.2 ≠ 0 ∧
        pool.className slots.2 = .ok "java/lang/Object" :=
    (Writes.classRef fits).bind fun this => (Writes.classRef (by decide)).map (Prod.mk this)
      fun pool parent both found => ⟨both.2.2, found.1, found.2⟩
  obtain ⟨more, assembled, found⟩ := writes.holds Assembled.empty few fun _ _ => trivial
  refine ⟨more, assembled, fun pool includes => ?_⟩
  obtain ⟨this, positive, parent⟩ := found pool includes
  exact {
    magic := rfl
    access := rfl
    thisClass := this
    superClass := ⟨some _, classNameIfAny_of_className positive parent⟩
    interfaces := ⟨[], .nil⟩
    fields := .nil
    methods := .nil
    attributes := .nil
    written := nofun }

private theorem Stands.prepare (part : Build UInt16) {mentions : List Mention}
    {found : ConstantPool → UInt16 → Prop}
    (stands : builder.pool.nextSlot ≤ 65535 → Stands name builder written outline room)
    (few : (ClassBuilder.prepare part builder).2.pool.nextSlot ≤ 65535)
    (writes : Writes (Faithful name builder written outline room) part mentions found) :
    Stands name (ClassBuilder.prepare part builder).2 written (outline.create mentions) room :=
  .write stands few rfl writes rfl fun _ here _ => { here with }

theorem Stands.step (step : BuildStep) (plain : step.Plain)
    (stands : builder.pool.nextSlot ≤ 65535 → Stands name builder written outline room)
    (few : (step.run builder).2.pool.nextSlot ≤ 65535) :
    Stands name (step.run builder).2 written (step.outlined outline) room := by
  cases step with
  | text value => exact .prepare (Build.text value) stands few (.text plain)
  | classRef value => exact .prepare (Build.classRef value) stands few (.classRef plain)
  | nameAndType member descriptor =>
    exact .prepare (Build.nameAndType member descriptor) stands few (.nameAndType plain)
  | methodRef owner member descriptor =>
    exact .prepare (Build.methodRef owner member descriptor) stands few
      (.methodRef plain.1 plain.2)
  | methodType descriptor =>
    exact .prepare (Build.methodType descriptor) stands few (.methodType plain)
  | integer bits =>
    exact .prepare (Build.add (.integer bits)) stands few
      (.add (.integer bits) trivial (by simp [Constant.references])
        (by simp [BuildStep.created, Mentions]))
  | long high low =>
    exact .prepare (Build.add (.long high low)) stands few
      (.add (.long high low) trivial (by simp [Constant.references])
        (by simp [BuildStep.created, Mentions]))
  | access flags =>
    obtain ⟨constants, assembled, faithful⟩ := stands few
    exact ⟨constants, assembled, fun pool includes =>
      { faithful pool includes with access := rfl }⟩
  | superClassIndex index =>
    obtain ⟨constants, assembled, faithful⟩ := stands few
    refine ⟨constants, ?_, fun pool includes => ?_⟩
    · change Assembled builder.pool constants (outline.created ++ [])
      rwa [List.append_nil]
    · exact { faithful pool includes with superClass := ⟨none, by rw [plain]; rfl⟩ }
  | extend parent =>
    change Stands name (ClassBuilder.extend parent builder).2 written
      (outline.create [.className parent]) room
    exact .write stands few rfl (.classRef plain) rfl fun pool here found =>
      { here with superClass := ⟨some parent, classNameIfAny_of_className found.1 found.2⟩ }
  | implement parent =>
    change Stands name (ClassBuilder.implement parent builder).2 written
      (outline.create [.className parent]) room
    refine .write stands few rfl (.classRef plain) rfl fun pool here found =>
      { here with interfaces := ?_ }
    obtain ⟨parents, named⟩ := here.interfaces
    exact ⟨parents ++ [parent], List.rel_append named (.cons found.2 .nil)⟩
  | _ => exact plain.elim

/-- By induction on the calls, none of which attaches anything that nests too deep. -/
theorem Crafted.stands (crafted : Crafted name builder written outline)
    (few : builder.pool.nextSlot ≤ 65535) : Stands name builder written outline {} := by
  induction crafted with
  | start fits => exact .ofName fits few
  | step _ step plain ih => exact .step step plain ih few
  | describe _ spec fits small ih =>
    obtain ⟨fieldsFit, shallow⟩ := fits
    refine Stands.write ih few rfl (.attributeOf spec fieldsFit) rfl fun pool here found =>
      { here with written := ?_ }
    rw [List.forall_mem_cons]
    refine ⟨?_, here.written⟩
    have reads := found small
    rwa [eq_true shallow] at reads
  | code _ handlers nested fewHandlers fits fewNested known small ih =>
    refine Stands.write ih few rfl (.code fewHandlers fits (by rwa [List.length_map])
      fun pool here _ => here.readInOrder known) rfl fun pool here found =>
        { here with written := ?_ }
    rw [List.forall_mem_cons]
    exact ⟨found small, here.written⟩
  | field _ field descriptor attributes fits fewAttributes known shallow ih =>
    refine Stands.write ih few rfl (.member fits.1 fits.2 _) (List.append_nil _).symm
      fun pool here found => { here with fields := ?_ }
    have added := here.fields.concatOf (found (by rwa [List.length_map]) (here.readInOrder known))
    exact added.congr (by simp [shallow])
  | method _ method descriptor attributes fits fewAttributes known shallow ih =>
    refine Stands.write ih few rfl (.member fits.1 fits.2 _) (List.append_nil _).symm
      fun pool here found => { here with methods := ?_ }
    have added := here.methods.concatOf (found (by rwa [List.length_map]) (here.readInOrder known))
    exact added.congr (by simp [shallow])
  | attach _ attached known shallow ih =>
    obtain ⟨constants, assembled, faithful⟩ := ih few
    refine ⟨constants, assembled, fun pool includes => ?_⟩
    have here := faithful pool includes
    refine { here with attributes := ?_ }
    have added := here.attributes.concatOf (here.written attached known maxLevels)
    exact added.congr (by simp [shallow])

/-! ### Decoding -/

/-- The numbers of slots and of table rows fit into their fields. -/
structure ClassBuilder.Fits (builder : ClassBuilder) : Prop where
  slots : builder.pool.nextSlot ≤ 65535
  interfaces : builder.interfaces.length ≤ 65535
  fields : builder.fields.length ≤ 65535
  methods : builder.methods.length ≤ 65535
  attributes : builder.attributes.length ≤ 65535

/-- What stands behind the constant pool. -/
def ClassBuilder.body (builder : ClassBuilder) : List UInt8 :=
  encode16 builder.access ++ (encode16 builder.thisClass ++ (encode16 builder.superClass ++
    (encodeTable (builder.interfaces.map encode16) ++ (encodeTable builder.fields ++
      (encodeTable builder.methods ++ encodeTable builder.attributes)))))

private theorem build_eq (builder : ClassBuilder) :
    builder.build = encode32 builder.magic ++ (bytes16 0 ++ (bytes16 52 ++
      ((bytes16 builder.pool.nextSlot ++ builder.pool.bytes) ++ builder.body))) := by
  simp only [ClassBuilder.build, ClassBuilder.body, List.append_assoc]

/-- The record of a class with an outline that makes these mentions. -/
def Outline.record (outline : Outline) (name : String) (mentions : List Mention) : ClassRecord :=
  .ofReferences (Text.replaceChar '/' '.' name) outline.content.sourceFiles.getLast?
    (isAbstractAccess outline.access) (mentions.flatMap (·.packages))

/-- The mentions of the class itself, of what it extends and of what it implements. -/
def headerMentions (name : String) (parent : Option String) (parents : List String) :
    List Mention :=
  .className name :: (classMention parent ++ parents.map .className)

private theorem takes_readMagic : readMagic.Takes (encode32 0xCAFEBABE) () := by
  rw [← List.append_nil (encode32 _)]
  refine (Takes.encode32 0xCAFEBABE).bind ?_
  rw [if_neg (by simp)]
  exact .pure ()

theorem Faithful.within_readBody {pool : ConstantPool}
    (faithful : Faithful name builder written outline room pool) (fits : builder.Fits)
    {found : List Mention} (mentioned : pool.mentions = .ok found) {parent : Option String}
    (superClass : Attribute.classNameIfAny pool builder.superClass = .ok (classMention parent))
    {parents : List String} (interfaces : List.Forall₂
      (fun parent slot => pool.className slot = .ok parent) parents builder.interfaces) :
    (readBody pool).TakesWithin room.All builder.body
      (outline.record name
        (headerMentions name parent parents ++ outline.content.mentions ++ found)) := by
  have interfaceTable : (Reader.table (Attribute.className pool)).Takes
      (encodeTable (builder.interfaces.map encode16)) (parents.map Mention.className) := by
    refine Takes.tableOf ?_ (interfaces.length_eq ▸ fits.interfaces)
    rw [List.forall₂_map_right_iff]
    exact interfaces.imp fun _ _ named => takes_className named
  have fieldTable := faithful.fields.table fits.fields
  have methodTable := faithful.methods.table fits.methods
  have attributeTable : (Attribute.tableWithin pool maxLevels).TakesWithin room.attributes
      (encodeTable builder.attributes) (Content.join outline.attributes).facts := by
    rw [Content.facts_join]
    exact (faithful.attributes.table fits.attributes).map Facts.concat
  -- The facts are joined part by part as they are read, the contents attached all at once.
  let facts := Facts.concat ([.mentioning (headerMentions name parent parents)] ++
    outline.fields.map Content.facts ++ outline.methods.map Content.facts ++
    [(Content.join outline.attributes).facts, .mentioning found])
  have all : facts = Content.facts
      ⟨headerMentions name parent parents ++ outline.content.mentions ++ found,
        outline.content.sourceFiles⟩ := by
    have parts : facts = Content.facts (.join ([.mentioning (headerMentions name parent parents)] ++
        outline.fields ++ outline.methods ++
        [.join outline.attributes, .mentioning found])) := by
      rw [Content.facts_join]
      simp only [List.map_append]
      rfl
    rw [parts]
    congr 1
    simp [Content.join, Content.mentioning, Outline.content]
  have same : outline.record name
        (headerMentions name parent parents ++ outline.content.mentions ++ found) =
      .ofReferences (Text.replaceChar '/' '.' name) facts.sourceFile
        (isAbstractAccess builder.access) (facts.mentions.flatMap (·.packages)) := by
    rw [all, faithful.access]
    rfl
  rw [same, ClassBuilder.body, ← List.append_nil (encodeTable builder.attributes)]
  refine .behind (.encode16 builder.access) (.behind (.encode16 builder.thisClass)
    (.lift faithful.thisClass (.behind (.encode16 builder.superClass) (.lift superClass
      (.behind interfaceTable ?_)))))
  refine TakesWithin.congr (fieldTable.bind (methodTable.bind (attributeTable.bind
    (.lift mentioned (.of_takes trivial (.pure _)))))) ?_
  rw [and_true, Room.All]

private theorem className_of_classNameIfAny {pool : ConstantPool} {slot : UInt16} {parent : String}
    (found : Attribute.classNameIfAny pool slot = .ok (classMention (some parent))) :
    pool.className slot = .ok parent := by
  unfold Attribute.classNameIfAny at found
  split at found
  next => cases found
  next =>
    obtain ⟨name, named, same⟩ := bind_eq_ok_iff.mp found
    cases same
    exact named

/-- The classes that the header names have constants of their own. -/
private theorem header_created {constants : List Constant}
    (assembled : Assembled builder.pool constants outline.created)
    (thisClass : (ofConstants constants).className builder.thisClass = .ok name)
    {parent : Option String} (superClass : Attribute.classNameIfAny (ofConstants constants)
      builder.superClass = .ok (classMention parent))
    {parents : List String} (interfaces : List.Forall₂
      (fun parent slot => (ofConstants constants).className slot = .ok parent) parents
      builder.interfaces) :
    ∀ mention ∈ headerMentions name parent parents, mention ∈ outline.created := by
  intro mention member
  rw [assembled.mentioned]
  rcases List.mem_cons.mp member with rfl | behind
  · exact mentions_className thisClass
  rcases List.mem_append.mp behind with above | beside
  · cases parent with
    | none => cases above
    | some parent =>
      rw [List.mem_singleton.mp above]
      exact mentions_className (className_of_classNameIfAny superClass)
  · obtain ⟨parent, inParents, rfl⟩ := List.mem_map.mp beside
    have each := interfaces.imp fun _ _ named => And.intro (mentions_className named) named
    exact ((List.forall₂_and_left _ _).mp each).1 parent inParents

/-- What stands is read as outlined, down to all that nests in it if there is room. The mentions of a class
are those of its constants and of what is attached to it. -/
theorem Stands.within_readClass (stands : Stands name builder written outline room)
    (fits : builder.Fits) : ∃ mentions,
      (∀ mention, mention ∈ mentions ↔ mention ∈ outline.created ++ outline.content.mentions) ∧
      readClass.TakesWithin room.All builder.build (outline.record name mentions) := by
  obtain ⟨constants, assembled, faithfulAll⟩ := stands
  have faithful := faithfulAll _ (.refl _)
  have checked : (ofConstants constants).checkReferences = .ok () :=
    (checkReferences_eq_ok_iff _).mpr fun constant held =>
      assembled.checked constant ((mem_slots_ofConstants _ _).mp held)
  obtain ⟨found, mentioned, foundIff⟩ := mentions_of_checked checked
  obtain ⟨parent, superClass⟩ := faithful.superClass
  obtain ⟨parents, interfaces⟩ := faithful.interfaces
  have few : slotTotal constants + 1 ≤ 65535 := by
    rw [← assembled.nextSlot]
    exact fits.slots
  have body := faithful.within_readBody fits mentioned superClass interfaces
  have created (mention : Mention) : mention ∈ found ↔ mention ∈ outline.created := by
    rw [foundIff, assembled.mentioned]
    simp only [mem_slots_ofConstants]
  -- The header says nothing new, as every class that it names has a constant.
  have header := header_created assembled faithful.thisClass superClass interfaces
  refine ⟨headerMentions name parent parents ++ outline.content.mentions ++ found,
    fun mention => ?_, ?_⟩
  · simp only [List.mem_append, created]
    constructor
    · rintro ((early | attached) | constant)
      · exact .inl (header mention early)
      · exact .inr attached
      · exact .inl constant
    · rintro (constant | attached)
      · exact .inr constant
      · exact .inl (.inr attached)
  · have pool := ConstantPool.takes_read constants assembled.fits few checked
    rw [build_eq, faithful.magic, assembled.nextSlot, assembled.bytes]
    exact .behind takes_readMagic (.behind (.bytes16 0) (.behind (.bytes16 52) (.behind pool body)))

theorem decode_of_takes {bytes : List UInt8} {record : ClassRecord}
    (taken : readClass.Takes bytes record) : decode bytes = .ok record := by
  have read := taken 0 []
  rw [List.append_nil] at read
  rw [decode, read, Except.map]

theorem decode_of_stopsDeep {bytes : List UInt8} (stops : readClass.StopsDeep bytes) :
    ∃ offset, decode bytes = .error (.nestingTooDeep offset) := by
  obtain ⟨offset, read⟩ := stops 0 []
  rw [List.append_nil] at read
  exact ⟨offset, by rw [decode, read, Except.map]⟩

/-- Whatever calls can build decodes. The record has the names of the class, the flags and the last
source file of the outline, and refers to the packages of all types mentioned but to its own. -/
theorem decode_build (crafted : Crafted name builder written outline) (fits : builder.Fits) :
    ∃ record, decode builder.build = .ok record ∧
      record.qualifiedName = Text.replaceChar '/' '.' name ∧
      record.packageName = packageOf record.qualifiedName ∧
      record.isAbstract = (outline.access &&& 0x0600 != 0) ∧
      record.sourceFile = outline.content.sourceFiles.getLast? ∧
      ∀ package, package ∈ record.referencedPackages ↔
        package ≠ record.packageName ∧
          ∃ mention ∈ outline.created ++ outline.content.mentions, package ∈ mention.packages := by
  obtain ⟨mentions, same, whole⟩ := (crafted.stands fits.slots).within_readClass fits
  have decoded := decode_of_takes (whole.takes ⟨trivial, trivial, trivial⟩)
  refine ⟨_, decoded, rfl, ?_, rfl, rfl, fun package => ?_⟩
  · rw [Outline.record, ClassRecord.packageName_ofReferences, ClassRecord.qualifiedName_ofReferences]
  rw [Outline.record, ClassRecord.mem_referencedPackages_ofReferences,
    ClassRecord.packageName_ofReferences, List.mem_flatMap]
  simp only [same]

end Invariant

/-- A method with a body that holds a handler and a local variable, and with a default value, behind a
constant that takes two slots; the table of local variables is written once and attached within the
body only. -/
theorem decode_build_with_code :
    ∃ builder written outline, Crafted "a/B" builder written outline ∧ builder.Fits ∧
      ∃ record, decode builder.build = .ok record ∧ record.qualifiedName = "a.B" ∧
        record.isAbstract = false ∧ record.sourceFile = some "B.java" ∧
        ∀ package, package ∈ record.referencedPackages ↔
          package ≠ "a" ∧ package ∈ ["a", "java.lang", "x", "p", "ann", "en", "x", "a"] := by
  have wide := (Crafted.start (by decide : FitsText "a/B")).step (.long 1 2) trivial
  have locals := wide.describe (.localVariables [("self", "La/B;")])
    (by simp [AttributeSpec.Fits, AttributeSpec.FieldsFit, AttributeSpec.ValuesShallow]; decide) (by decide +kernel)
  have body := locals.code [some "x/E", none] _ (by decide) (by simp; decide) (by decide)
    (List.Subset.refl _) (by decide +kernel)
  have described := body.describe
    (.annotationDefault (.array [.annotated "Lann/A;" [("value", .enumConstant "Len/K;" "K")]]))
    (by simp [AttributeSpec.Fits, AttributeSpec.FieldsFit, AttributeSpec.ValuesShallow,
      ElementValue.Fits, ElementValue.ValuesFit, ElementValue.ElementsFit]; decide) (by decide +kernel)
  have method := described.method "run" "(Lp/Q;)V" _ (by decide) (by decide)
    (List.take_subset 2 _) (by decide)
  have source := method.describe (.sourceFile "B.java") (by simp [AttributeSpec.Fits, AttributeSpec.FieldsFit, AttributeSpec.ValuesShallow]; decide)
    (by decide +kernel)
  have attached := source.attach _ (.head _) (by decide)
  obtain ⟨record, decoded, name, package, plain, file, referenced⟩ := decode_build attached
    ⟨by decide +kernel, by decide +kernel, by decide +kernel, by decide +kernel, by decide +kernel⟩
  refine ⟨_, _, _, attached, ?_, record, decoded, ?_, ?_, ?_, ?_⟩
  · constructor <;> decide +kernel
  · rw [name]
    decide +kernel
  · rw [plain]
    decide +kernel
  · rw [file]
    decide +kernel
  · intro candidate
    have own : record.packageName = "a" := by
      rw [package, name]
      decide +kernel
    rw [referenced, own, ← List.mem_flatMap]
    refine and_congr_right fun _ => iff_of_eq (congrArg (candidate ∈ ·) ?_)
    decide +kernel

end PackageAudit.ClassFile
