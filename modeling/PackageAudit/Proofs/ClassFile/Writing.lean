import PackageAudit.Proofs.ClassFile.Meaning
import PackageAudit.Proofs.ClassFile.PoolLayout
/-!
Writing with a constant pool that grows.

A pool that is being written stands for a list of constants, to which writing only adds. What a part
of a class file means is settled by the constants that are there when it is written, and stays so in
every pool that goes on behind them. Conditions on pools are therefore asked of all pools that
include the one at hand, which lets the parts of a class file be put together in sequence.

All of this holds as long as the slots that are taken can be numbered.
-/

namespace PackageAudit.ClassFile

open ConstantPool

/-- A pool that is being written holds these constants, by which these types have been mentioned. -/
structure Assembled (builder : PoolBuilder) (constants : List Constant) (created : List Mention) :
    Prop where
  bytes : builder.bytes = constants.flatMap Constant.encode
  nextSlot : builder.nextSlot = slotTotal constants + 1
  fits : ∀ constant ∈ constants, constant.Fits
  checked : ∀ constant ∈ constants, ∀ reference ∈ constant.references,
    (ofConstants constants).check reference = .ok ()
  texts : ∀ text slot, builder.texts.lookup text = some slot →
    (ofConstants constants).text slot = .ok text
  classes : ∀ name slot, builder.classes.lookup name = some slot →
    (ofConstants constants).className slot = .ok name
  mentioned : ∀ mention, mention ∈ created ↔
    ∃ constant ∈ constants, (ofConstants constants).Mentions mention constant

theorem Assembled.empty : Assembled {} [] [] where
  bytes := rfl
  nextSlot := rfl
  fits := nofun
  checked := nofun
  texts := nofun
  classes := nofun
  mentioned := by simp

/-- The references of a constant that are good in one pool mention the same in a larger one. -/
private theorem mentions_of_includes {pool other : ConstantPool} (includes : pool.Includes other)
    {constant : Constant}
    (checked : ∀ reference ∈ constant.references, other.check reference = .ok ())
    (mention : Mention) : pool.Mentions mention constant ↔ other.Mentions mention constant := by
  have same (index : UInt16) (member : (index, Expected.utf8) ∈ constant.references)
      (text : String) : pool.text index = .ok text ↔ other.text index = .ok text := by
    obtain ⟨found, read⟩ := text_of_check (checked _ member)
    rw [includes.text read, read]
  cases constant with
  | classRef name => simp only [Mentions, same name (by simp [Constant.references])]
  | nameAndType name descriptor =>
    simp only [Mentions, same descriptor (by simp [Constant.references])]
  | methodType descriptor => simp only [Mentions, same descriptor (by simp [Constant.references])]
  | _ => rfl

/-- One more constant, whose references are good already. -/
private theorem Assembled.add {builder : PoolBuilder} {constants : List Constant}
    {created : List Mention} (assembled : Assembled builder constants created)
    {constant : Constant} (fits : constant.Fits)
    (checked : ∀ reference ∈ constant.references, (ofConstants constants).check reference = .ok ())
    {mentions : List Mention}
    (mentioned : ∀ mention, mention ∈ mentions ↔ (ofConstants constants).Mentions mention constant) :
    Assembled { builder with
        bytes := builder.bytes ++ constant.encode
        nextSlot := builder.nextSlot + constant.slotCount }
      (constants ++ [constant]) (created ++ mentions) := by
  have includes := includes_append constants [constant]
  -- References point backwards, so all of them are good before the new constant is there.
  have good : ∀ other ∈ constants ++ [constant], ∀ reference ∈ other.references,
      (ofConstants constants).check reference = .ok () := by
    intro other member
    rcases List.mem_append.mp member with old | new
    · exact assembled.checked other old
    · rw [List.mem_singleton.mp new]
      exact checked
  constructor
  case bytes => simp [assembled.bytes]
  case nextSlot =>
    simp only [assembled.nextSlot, slotTotal, List.map_append, List.sum_append, List.map_cons,
      List.map_nil, List.sum_cons, List.sum_nil]
    omega
  case fits =>
    intro other member
    rcases List.mem_append.mp member with old | new
    · exact assembled.fits other old
    · rwa [List.mem_singleton.mp new]
  case checked =>
    exact fun other member reference held => includes.check (good other member reference held)
  case texts => exact fun text slot found => includes.text (assembled.texts text slot found)
  case classes => exact fun name slot found => includes.className (assembled.classes name slot found)
  case mentioned =>
    intro mention
    rw [List.mem_append, assembled.mentioned, mentioned]
    constructor
    · rintro (⟨other, member, made⟩ | made)
      · exact ⟨other, List.mem_append_left _ member,
          (mentions_of_includes includes (assembled.checked other member) mention).mpr made⟩
      · exact ⟨constant, by simp, (mentions_of_includes includes checked mention).mpr made⟩
    · rintro ⟨other, member, made⟩
      have before := (mentions_of_includes includes (good other member) mention).mp made
      rcases List.mem_append.mp member with old | new
      · exact .inl ⟨other, old, before⟩
      · rw [List.mem_singleton.mp new] at before
        exact .inr before

theorem classNameIfAny_of_className {pool : ConstantPool} {slot : UInt16} {name : String}
    (positive : slot ≠ 0) (found : pool.className slot = .ok name) :
    Attribute.classNameIfAny pool slot = .ok (classMention (some name)) := by
  rw [Attribute.classNameIfAny, if_neg positive, found]
  rfl

/-- Where the condition holds before, writing the part mentions these types and answers a value for
which the condition holds behind it. -/
structure Writes {α : Type} (before : ConstantPool → Prop) (part : Build α)
    (created : List Mention) (after : ConstantPool → α → Prop) : Prop where
  grows : ∀ builder : PoolBuilder, builder.nextSlot ≤ (part.run builder).2.nextSlot
  holds : ∀ {builder : PoolBuilder} {constants : List Constant} {earlier : List Mention},
    Assembled builder constants earlier → (part.run builder).2.nextSlot ≤ 65535 →
    (∀ pool : ConstantPool, pool.Includes (ofConstants constants) → before pool) →
    ∃ more, Assembled (part.run builder).2 (constants ++ more) (earlier ++ created) ∧
      ∀ pool : ConstantPool, pool.Includes (ofConstants (constants ++ more)) →
        after pool (part.run builder).1

namespace Writes

variable {α β : Type} {before : ConstantPool → Prop} {part : Build α} {next : α → Build β}
  {created others : List Mention} {middle : ConstantPool → α → Prop}
  {after : ConstantPool → β → Prop}

protected theorem pure {value : β} (holds : ∀ pool, before pool → after pool value) :
    Writes before (pure value) [] after where
  grows _ := Nat.le_refl _
  holds := by
    intro builder constants earlier assembled _ good
    refine ⟨[], ?_, fun pool includes => ?_⟩
    · rw [List.append_nil, List.append_nil]
      exact assembled
    · rw [List.append_nil] at includes
      exact holds pool (good pool includes)

protected theorem bind (first : Writes before part created middle)
    (second : ∀ value, Writes (fun pool => before pool ∧ middle pool value) (next value) others after) :
    Writes before (part >>= next) (created ++ others) after where
  grows builder := Nat.le_trans (first.grows builder) ((second _).grows _)
  holds := by
    intro builder constants earlier assembled few good
    -- There was room for the first part, as the second has taken no slots back.
    have fewBetween := Nat.le_trans ((second (part.run builder).1).grows (part.run builder).2) few
    obtain ⟨more, between, found⟩ := first.holds assembled fewBetween good
    have stays (pool : ConstantPool) (includes : pool.Includes (ofConstants (constants ++ more))) :
        before pool :=
      good pool (includes.trans (includes_append constants more))
    obtain ⟨rest, last, answered⟩ := (second (part.run builder).1).holds between few
      fun pool includes => ⟨stays pool includes, found pool includes⟩
    refine ⟨more ++ rest, ?_, ?_⟩
    · rw [← List.append_assoc, ← List.append_assoc]
      exact last
    · rw [← List.append_assoc]
      exact answered

protected theorem imp (writes : Writes before part created middle)
    {weaker : ConstantPool → α → Prop}
    (follows : ∀ pool value, before pool → middle pool value → weaker pool value) :
    Writes before part created weaker where
  grows := writes.grows
  holds := by
    intro builder constants earlier assembled few good
    obtain ⟨more, last, found⟩ := writes.holds assembled few good
    exact ⟨more, last, fun pool includes => follows pool _
      (good pool (includes.trans (includes_append constants more))) (found pool includes)⟩

/-- The last step of a sequence answers something of what was answered before. -/
protected theorem map (writes : Writes before part created middle) (change : α → β)
    (follows : ∀ pool value, before pool → middle pool value → after pool (change value)) :
    Writes before (part >>= fun value => pure (change value)) created after := by
  rw [← List.append_nil created]
  exact writes.bind fun value => .pure fun pool both => follows pool value both.1 both.2

protected theorem given {weaker : ConstantPool → Prop} (writes : Writes weaker part created middle)
    (follows : ∀ pool, before pool → weaker pool) : Writes before part created middle where
  grows := writes.grows
  holds assembled few good :=
    writes.holds assembled few fun pool includes => follows pool (good pool includes)

/-- A fact about whatever the part answers holds beside what is found of the answer. -/
protected theorem answers (writes : Writes before part created middle) (fact : α → Prop)
    (always : ∀ builder, fact (part.run builder).1) :
    Writes before part created fun pool value => fact value ∧ middle pool value where
  grows := writes.grows
  holds := by
    intro builder constants earlier assembled few good
    obtain ⟨more, last, found⟩ := writes.holds assembled few good
    exact ⟨more, last, fun pool includes => ⟨always builder, found pool includes⟩⟩

protected theorem congr (writes : Writes before part created middle) (same : created = others) :
    Writes before part others middle :=
  same ▸ writes

variable (before) in
/-- By induction on the items, each of which is written behind those before it. -/
protected theorem mapM {ι : Type} {items : List ι} {part : ι → Build α}
    {mentions : ι → List Mention} {found : ConstantPool → ι → α → Prop}
    (each : ∀ item ∈ items, Writes before (part item) (mentions item) fun pool => found pool item) :
    Writes before (items.mapM part) (items.flatMap mentions)
      fun pool values => List.Forall₂ (found pool) items values := by
  induction items with
  | nil => exact .pure fun _ _ => .nil
  | cons item items ih =>
    rw [List.forall_mem_cons] at each
    rw [List.mapM_cons, List.flatMap_cons]
    refine each.1.bind fun value => ?_
    exact ((ih each.2).given fun _ both => both.1).map (value :: ·)
      fun _ _ both others => .cons both.2 others

/-! ### Constants -/

theorem add (constant : Constant) (fits : constant.Fits)
    (checked : ∀ pool, before pool →
      ∀ reference ∈ constant.references, pool.check reference = .ok ())
    {mentions : List Mention}
    (mentioned : ∀ pool, before pool →
      ∀ mention, mention ∈ mentions ↔ pool.Mentions mention constant) :
    Writes before (Build.add constant) mentions
      fun pool slot => slot ≠ 0 ∧ pool.get slot = .ok constant where
  grows _ := Nat.le_add_right _ _
  holds := by
    intro builder constants earlier assembled few good
    have here := good _ (.refl _)
    refine ⟨[constant], assembled.add fits (checked _ here) (mentioned _ here), ?_⟩
    intro pool includes
    -- The slot of the constant is no more than the next free one, which can be numbered.
    have room : slotTotal constants + 1 ≤ 65535 := by
      rw [← assembled.nextSlot]
      exact Nat.le_trans (Nat.le_add_right _ _) few
    have found := get_next constants constant room
    rw [← assembled.nextSlot] at found
    exact ⟨ne_zero_of_get found, includes _ _ found⟩

/-- What is looked up is not added again; what is not known yet is added and remembered. -/
private theorem remembered {part whole : Build UInt16} {found : ConstantPool → UInt16 → Prop}
    (lookup : PoolBuilder → Option UInt16) (remember : UInt16 → PoolBuilder → PoolBuilder)
    (run : ∀ builder, whole.run builder =
      match lookup builder with
      | some slot => (slot, builder)
      | none => ((part.run builder).1, remember (part.run builder).1 (part.run builder).2))
    (unmoved : ∀ slot builder, (remember slot builder).nextSlot = builder.nextSlot)
    (known : ∀ {builder constants earlier slot}, Assembled builder constants earlier →
      lookup builder = some slot →
      found (ofConstants constants) slot ∧ ∀ mention ∈ created, mention ∈ earlier)
    (kept : ∀ {builder constants earlier slot}, Assembled builder constants earlier →
      found (ofConstants constants) slot → Assembled (remember slot builder) constants earlier)
    (stays : ∀ {pool other : ConstantPool} {slot}, pool.Includes other → found other slot →
      found pool slot)
    (writes : Writes before part created found) : Writes before whole created found := by
  constructor
  · intro builder
    rw [run]
    cases lookup builder with
    | some slot => exact Nat.le_refl _
    | none =>
      rw [unmoved]
      exact writes.grows builder
  · intro builder constants earlier assembled few good
    rw [run] at few ⊢
    cases old : lookup builder with
    | some slot =>
      -- Nothing is added, and the constant in the slot mentioned its types when it was.
      obtain ⟨here, mentioned⟩ := known assembled old
      refine ⟨[], ?_, fun pool includes => ?_⟩
      · rw [List.append_nil]
        refine { assembled with mentioned := fun mention => ?_ }
        rw [List.mem_append, ← assembled.mentioned]
        exact or_iff_left_of_imp (mentioned mention)
      · rw [List.append_nil] at includes
        exact stays includes here
    | none =>
      rw [old] at few
      obtain ⟨more, last, here⟩ := writes.holds assembled (by rwa [unmoved] at few) good
      exact ⟨more, kept last (here _ (.refl _)), here⟩

private theorem get_utf8 {pool : ConstantPool} {slot : UInt16} {text : String}
    (found : pool.get slot = .ok (.utf8 (Text.utf8 text))) : pool.text slot = .ok text :=
  text_eq_ok_iff.mpr ⟨_, found, Text.ofModifiedUtf8_utf8 text⟩

theorem text {text : String} (fits : FitsText text) :
    Writes before (Build.text text) [] fun pool slot => pool.text slot = .ok text := by
  have fitsUtf8 : (Constant.utf8 (Text.utf8 text)).Fits := fits
  have added : Writes before (Build.add (.utf8 (Text.utf8 text))) []
      fun pool slot => pool.text slot = .ok text :=
    (add _ fitsUtf8 (by simp [Constant.references]) (by simp [Mentions])).imp
      fun _ _ _ found => get_utf8 found.2
  refine remembered (fun builder => builder.texts.lookup text)
    (fun slot builder => { builder with texts := (text, slot) :: builder.texts })
    ?_ (fun _ _ => rfl) ?_ ?_ (fun includes here => includes.text here) added
  · intro builder
    cases known : builder.texts.lookup text <;> simp [Build.text, known] <;> rfl
  · intro builder constants earlier slot assembled known
    exact ⟨assembled.texts text slot known, by simp⟩
  · intro builder constants earlier slot assembled here
    refine { assembled with texts := fun other place known => ?_ }
    rw [List.lookup_cons] at known
    split at known
    next same =>
      cases known
      rwa [eq_of_beq same]
    next => exact assembled.texts other place known

theorem classRef {name : String} (fits : FitsText name) :
    Writes before (Build.classRef name) [.className name]
      fun pool slot => slot ≠ 0 ∧ pool.className slot = .ok name := by
  let part : Build UInt16 := do
    let nameSlot ← Build.text name
    Build.add (.classRef nameSlot)
  have added : Writes before part [.className name]
      fun pool slot => slot ≠ 0 ∧ pool.className slot = .ok name := by
    refine (text fits).bind fun nameSlot => (add (.classRef nameSlot) trivial ?_ ?_).imp ?_
    · rintro pool ⟨_, named⟩ reference member
      rw [List.mem_singleton.mp member]
      exact check_of_text named
    · rintro pool ⟨_, named⟩ mention
      simp [Mentions, named]
    · rintro pool slot ⟨_, named⟩ ⟨positive, held⟩
      exact ⟨positive, className_eq_ok_iff.mpr ⟨nameSlot, held, named⟩⟩
  refine remembered (fun builder => builder.classes.lookup name)
    (fun slot builder => { builder with classes := (name, slot) :: builder.classes })
    ?_ (fun _ _ => rfl) ?_ ?_ (fun includes here => ⟨here.1, includes.className here.2⟩) added
  · intro builder
    cases known : builder.classes.lookup name <;> simp [Build.classRef, known] <;> rfl
  · intro builder constants earlier slot assembled known
    have here := assembled.classes name slot known
    obtain ⟨_, held, _⟩ := className_eq_ok_iff.mp here
    refine ⟨⟨ne_zero_of_get held, here⟩, fun mention member => ?_⟩
    rw [List.mem_singleton.mp member, assembled.mentioned]
    exact mentions_className here
  · intro builder constants earlier slot assembled here
    refine { assembled with classes := fun other place known => ?_ }
    rw [List.lookup_cons] at known
    split at known
    next same =>
      cases known
      rw [eq_of_beq same]
      exact here.2
    next => exact assembled.classes other place known

theorem classRefOrZero {name : Option String} (fits : ∀ given ∈ name, FitsText given) :
    Writes before (Build.classRefOrZero name) (classMention name)
      fun pool slot => Attribute.classNameIfAny pool slot = .ok (classMention name) := by
  cases name with
  | none => exact .pure fun _ _ => rfl
  | some name =>
    exact (classRef (fits name rfl)).imp fun pool slot _ found =>
      classNameIfAny_of_className found.1 found.2

theorem nameAndType {name descriptor : String} (fits : FitsText name ∧ FitsText descriptor) :
    Writes before (Build.nameAndType name descriptor) [.typeText descriptor]
      fun pool slot => slot ≠ 0 ∧ pool.check (slot, .nameAndType) = .ok () ∧
        pool.nameAndTypeDescriptor slot = .ok descriptor := by
  refine (text fits.1).bind fun nameSlot => (text fits.2).bind fun descriptorSlot =>
    (add (.nameAndType nameSlot descriptorSlot) trivial ?_ ?_).imp ?_
  · rintro pool ⟨⟨_, named⟩, described⟩ reference member
    rcases List.mem_pair.mp member with rfl | rfl
    · exact check_of_text named
    · exact check_of_text described
  · rintro pool ⟨_, described⟩ mention
    simp [Mentions, described]
  · rintro pool slot ⟨_, described⟩ ⟨positive, held⟩
    exact ⟨positive, check_eq_ok_iff.mpr ⟨_, held, rfl⟩,
      nameAndTypeDescriptor_eq_ok_iff.mpr ⟨_, _, held, described⟩⟩

theorem methodRef {owner name descriptor : String} (fitsOwner : FitsText owner)
    (fits : FitsText name ∧ FitsText descriptor) :
    Writes before (Build.methodRef owner name descriptor)
      [.className owner, .typeText descriptor] fun _ _ => True := by
  refine (classRef fitsOwner).bind fun ownerSlot => (nameAndType fits).bind fun memberSlot =>
    (add (.methodRef ownerSlot memberSlot) trivial ?_ ?_).imp fun _ _ _ _ => trivial
  · rintro pool ⟨⟨_, _, owned⟩, _, checked, _⟩ reference member
    rcases List.mem_pair.mp member with rfl | rfl
    · exact check_of_className owned
    · exact checked
  · simp [Mentions]

theorem methodType {descriptor : String} (fits : FitsText descriptor) :
    Writes before (Build.methodType descriptor) [.typeText descriptor] fun _ _ => True := by
  refine (text fits).bind fun slot =>
    (add (.methodType slot) trivial ?_ ?_).imp fun _ _ _ _ => trivial
  · rintro pool ⟨_, described⟩ reference member
    rw [List.mem_singleton.mp member]
    exact check_of_text described
  · rintro pool ⟨_, described⟩ mention
    simp [Mentions, described]

end Writes

end PackageAudit.ClassFile
