import PackageAudit.Proofs.ClassFile.FileRecognition
/-!
What can no longer fail once the constants of a file are read.

References among constants are checked when all of them are there, forwards as well as backwards and behind
the cut at the declared count. Looking up what a class, a member or a method type is called follows nothing
but references that were checked. Decoding ends with such lookups alone, so it can fail in the structures
of a file or before them, but not behind the last one.
-/

namespace PackageAudit.ClassFile

/-! ### Lookups that start from a constant -/

/-- Each constant stands at a number that can be written, and each name or descriptor that belongs to a
class, a member or a method type of the pool is found. -/
structure ConstantPool.Resolves (pool : ConstantPool) : Prop where
  numbered : ∀ (number : Nat) (constant : Constant), pool.slots[number]? = some (some constant) →
    ∃ index : UInt16, index.toNat = number ∧ pool.get index = .ok constant
  className : ∀ index name, pool.get index = .ok (.classRef name) →
    ∃ text, pool.className index = .ok text
  descriptor : ∀ index name descriptor, pool.get index = .ok (.nameAndType name descriptor) →
    ∃ text, pool.nameAndTypeDescriptor index = .ok text ∧ pool.text descriptor = .ok text
  methodType : ∀ index descriptor, pool.get index = .ok (.methodType descriptor) →
    ∃ text, pool.text descriptor = .ok text

namespace ConstantPool

variable {pool : ConstantPool} {cursor after : Cursor}

/-- A text that a constant refers to is found once its references are checked. -/
theorem text_of_reference (checked : pool.checkReferences = .ok ()) {index name : UInt16}
    {constant : Constant} (held : pool.get index = .ok constant)
    (refers : (name, Expected.utf8) ∈ constant.references) : ∃ text, pool.text name = .ok text := by
  rw [get_eq_ok_iff, ← Array.getElem?_toList] at held
  exact text_of_check
    ((checkReferences_eq_ok_iff pool).mp checked constant (List.mem_of_getElem? held) _ refers)

theorem resolves_of_checked (checked : pool.checkReferences = .ok ()) (few : pool.size < UInt16.size) :
    pool.Resolves where
  numbered number constant held := by
    -- There are fewer slots than numbers that can be written, so no number wraps around.
    have inSlots : number < pool.size := (Array.getElem?_eq_some_iff.mp held).1
    have same : (UInt16.ofNat number).toNat = number :=
      UInt16.toNat_ofNat_of_lt' (Nat.lt_trans inSlots few)
    exact ⟨.ofNat number, same, (get_eq_ok_iff _ _ _).mpr (same.symm ▸ held)⟩
  className index name held := by
    obtain ⟨text, named⟩ := text_of_reference checked held (.head _)
    exact ⟨text, className_eq_ok_iff.mpr ⟨name, held, named⟩⟩
  descriptor index name descriptor held := by
    obtain ⟨text, described⟩ := text_of_reference checked held (.tail _ (.head _))
    exact ⟨text, nameAndTypeDescriptor_eq_ok_iff.mpr ⟨name, descriptor, held, described⟩, described⟩
  methodType index descriptor held := text_of_reference checked held (.head _)

/-- A pool that is read has its references checked, in no more slots than can be declared. -/
theorem checked_of_read (accepted : read cursor = .ok (pool, after)) :
    pool.checkReferences = .ok () ∧ pool.size < UInt16.size := by
  obtain ⟨_, ⟨count, constants, _, declares, met, _, rfl⟩, _⟩ := recognizes_read.only accepted
  have bound : count.toNat < UInt16.size := count.toNat_lt
  refine ⟨(checkReferences_declaring_ok declares).mpr met, ?_⟩
  rw [size_declaring declares]
  exact Nat.max_lt.mpr ⟨bound, by decide⟩

end ConstantPool

/-! ### The structures of a file -/

/-- What reading takes from the structures of a class, down to its last attribute table. -/
structure ClassStructures where
  access : UInt16
  name : String
  superclass : List Mention
  interfaces : List Mention
  fields : List Facts
  methods : List Facts
  attributes : Facts
  deriving DecidableEq

def ClassStructures.facts (structures : ClassStructures) (constants : List Mention) : Facts :=
  .concat ([.mentioning (.className structures.name :: structures.superclass ++ structures.interfaces)] ++
    structures.fields ++ structures.methods ++ [structures.attributes, .mentioning constants])

/-- The record of a class with these structures, whose constants make some mentions. -/
def ClassStructures.record (structures : ClassStructures) (constants : List Mention) : ClassRecord :=
  .ofReferences (Text.replaceChar '/' '.' structures.name) (structures.facts constants).sourceFile
    (isAbstractAccess structures.access)
    ((structures.facts constants).mentions.flatMap (·.packages))

/-- What stands before the constants. -/
def readHeader : Reader Unit := do
  readMagic
  let _ ← Reader.u16
  let _ ← Reader.u16

/-- All that stands behind the constants. -/
def readStructures (pool : ConstantPool) : Reader ClassStructures := do
  let access ← Reader.u16
  let name ← pool.className (← Reader.u16)
  let superclass ← Attribute.classNameIfAny pool (← Reader.u16)
  let interfaces ← Reader.table (Attribute.className pool)
  let fields ← Reader.table (member pool)
  let methods ← Reader.table (member pool)
  let attributes ← Attribute.tableWithin pool maxLevels
  return { access, name, superclass, interfaces, fields, methods, attributes }

/-- A class is read structure by structure, and then from its constants. -/
theorem readBody_eq (pool : ConstantPool) :
    readBody pool = readStructures pool >>= fun structures =>
      structures.record <$> (liftM pool.mentions : Reader (List Mention)) := by
  simp only [readBody, readStructures, bind_assoc, pure_bind]
  rfl

theorem readClass_eq : readClass = readHeader >>= fun _ => ConstantPool.read >>= readBody := by
  simp only [readClass, readHeader, bind_assoc, pure_bind]

/-! ### The end of decoding -/

/-- Where the mentions of the constants are known to be found, reading a class is reading its structures. -/
theorem readBody_of_mentions {pool : ConstantPool} {found : List Mention}
    (mentioned : pool.mentions = .ok found) :
    readBody pool = (·.record found) <$> readStructures pool := by
  rw [readBody_eq, mentioned, ← bind_pure_comp]
  rfl

theorem bind_of_read {α β : Type} {reader : Reader α} {next : α → Reader β} {cursor after : Cursor}
    {value : α} (read : reader cursor = .ok (value, after)) :
    (reader >>= next) cursor = next value after := by
  change (reader cursor >>= fun answer => next answer.1 answer.2) = _
  rw [read]
  rfl

/-- Once the constants of a file are accepted, all lookups that start from one of them succeed. What the file
decodes to, or how it fails, is then settled by its structures alone: behind the last attribute table
nothing can fail any more. -/
theorem decode_of_accepted_pool {cursor after : Cursor} {pool : ConstantPool}
    (accepted : ConstantPool.read cursor = .ok (pool, after)) :
    pool.Resolves ∧ ∃ found, pool.mentions = .ok found ∧
      ∀ bytes, readHeader ⟨0, bytes⟩ = .ok ((), cursor) →
        decode bytes = (readStructures pool after).map fun read => read.1.record found := by
  obtain ⟨checked, few⟩ := ConstantPool.checked_of_read accepted
  obtain ⟨found, mentioned, _⟩ := ConstantPool.mentions_of_checked checked
  refine ⟨ConstantPool.resolves_of_checked checked few, found, mentioned, fun bytes header => ?_⟩
  -- The structures stand right behind the constants, and the mentions of those are known by now.
  have whole : readClass ⟨0, bytes⟩ = ((·.record found) <$> readStructures pool) after := by
    rw [readClass_eq, bind_of_read header, bind_of_read accepted, readBody_of_mentions mentioned]
  rw [decode, whole]
  cases structures : readStructures pool after <;> simp [structures, Except.map, Functor.map, StateT.map]

/-- References forwards and backwards, and a long whose second slot is not counted. -/
theorem decode_of_accepted_pool_cut_short :
    let constants : List Constant := [.classRef 2, .utf8 [65], .nameAndType 2 5, .methodType 5,
      .utf8 [40, 76, 98, 47, 67, 59, 41, 86], .long 0 7]
    let header : List UInt8 := [0xCA, 0xFE, 0xBA, 0xBE, 0, 0, 0, 52]
    let bytes := encode16 7 ++ constants.flatMap Constant.encode
    let body : List UInt8 := [0, 33, 0, 1, 0, 0, 0, 0, 0, 0, 0, 0, 0, 0]
    let pool := ConstantPool.declaring 7 constants
    let structures : ClassStructures := ⟨33, "A", [], [], [], [], .concat []⟩
    ConstantPool.read ⟨8, bytes ++ body⟩ = .ok (pool, ⟨45, body⟩) ∧ pool.Resolves ∧
      pool.mentions = .ok [.className "A", .typeText "(Lb/C;)V", .typeText "(Lb/C;)V"] ∧
      readStructures pool ⟨45, body⟩ = .ok (structures, ⟨59, []⟩) ∧
      decode (header ++ bytes ++ body) =
        .ok (structures.record [.className "A", .typeText "(Lb/C;)V", .typeText "(Lb/C;)V"]) := by
  intro constants header bytes body pool structures
  have accepted : ConstantPool.read ⟨8, bytes ++ body⟩ = .ok (pool, ⟨45, body⟩) := rfl
  have swept : pool.mentions = .ok [.className "A", .typeText "(Lb/C;)V", .typeText "(Lb/C;)V"] := by
    decide +kernel
  have read : readStructures pool ⟨45, body⟩ = .ok (structures, ⟨59, []⟩) := by
    decide +kernel
  obtain ⟨resolves, found, mentioned, decodes⟩ := decode_of_accepted_pool accepted
  obtain rfl := Except.ok.inj (swept.symm.trans mentioned)
  refine ⟨accepted, resolves, swept, read, ?_⟩
  rw [decodes (header ++ bytes ++ body) rfl, read]
  rfl

end PackageAudit.ClassFile
