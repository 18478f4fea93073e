import Mathlib.Algebra.GroupWithZero.Nat
import PackageAudit.ClassFile.Decode
import PackageAudit.Proofs.ClassFile.ReadBack
import PackageAudit.Proofs.Results
/-!
Constant pools by their constants.

A pool is laid out from its constants in order, each in as many slots as it takes. Adding constants
moves none of those before them, so whatever a reference into a pool finds, it finds in every pool
that goes on behind it.
-/

namespace PackageAudit.ClassFile

open Reader

namespace Constant

/-- Only the length of a text can be too large for its field. -/
def Fits : Constant → Prop
  | .utf8 bytes => bytes.length ≤ 65535
  | _ => True

private theorem takes_pair (make : UInt16 → UInt16 → Constant) (first second : UInt16) :
    (read.pair make).Takes (encode16 first ++ encode16 second) (make first second) :=
  (Takes.encode16 first).bind ((Takes.encode16 second).map _)

private theorem takes_wide (make : UInt32 → UInt32 → Constant) (high low : UInt32) :
    (read.wide make).Takes (encode32 high ++ encode32 low) (make high low) := by
  have inner : (u32 >>= fun high => u32 >>= fun low => pure (make high low)).Takes
      (encode32 high ++ encode32 low) (make high low) :=
    (Takes.encode32 high).bind ((Takes.encode32 low).map (make high))
  have whole := inner.within []
  rwa [List.append_nil] at whole

theorem takes_read (constant : Constant) (fits : constant.Fits) :
    read.Takes constant.encode constant := by
  cases constant with
  | utf8 bytes =>
    refine .tagged fun _ => (Takes.bytes16 bytes.length).bind ?_
    have length : (UInt16.ofNat bytes.length).toNat = bytes.length := by
      rw [UInt16.toNat_ofNat']
      exact Nat.mod_eq_of_lt (Nat.lt_succ_of_le fits)
    rw [length]
    exact (Takes.ofBytes bytes).map _
  | integer bits => exact .tagged fun _ => (Takes.encode32 bits).map _
  | float bits => exact .tagged fun _ => (Takes.encode32 bits).map _
  | long high low => exact .tagged fun _ => takes_wide .long high low
  | double high low => exact .tagged fun _ => takes_wide .double high low
  | classRef name => exact .tagged fun _ => (Takes.encode16 name).map _
  | string text => exact .tagged fun _ => (Takes.encode16 text).map _
  | fieldRef owner member => exact .tagged fun _ => takes_pair .fieldRef owner member
  | methodRef owner member => exact .tagged fun _ => takes_pair .methodRef owner member
  | interfaceMethodRef owner member =>
    exact .tagged fun _ => takes_pair .interfaceMethodRef owner member
  | nameAndType name descriptor => exact .tagged fun _ => takes_pair .nameAndType name descriptor
  | methodHandle kind reference =>
    exact .tagged fun _ => (Takes.u8 kind).bind ((Takes.encode16 reference).map _)
  | methodType descriptor => exact .tagged fun _ => (Takes.encode16 descriptor).map _
  | dynamic bootstrap member => exact .tagged fun _ => takes_pair .dynamic bootstrap member
  | invokeDynamic bootstrap member =>
    exact .tagged fun _ => takes_pair .invokeDynamic bootstrap member
  | module name => exact .tagged fun _ => (Takes.encode16 name).map _
  | package name => exact .tagged fun _ => (Takes.encode16 name).map _

/-- The slots a constant takes, of which the second of a wide one names nothing. -/
def slots (constant : Constant) : List (Option Constant) :=
  if constant.isWide then [some constant, none] else [some constant]

theorem length_slots (constant : Constant) : constant.slots.length = constant.slotCount := by
  unfold slots slotCount
  split <;> rfl

theorem slots_getElem? (first constant : Constant) (i : Nat) :
    first.slots[i]? = some (some constant) ↔ first = constant ∧ i = 0 := by
  unfold slots
  split <;> rcases i with _ | _ | i <;> simp

theorem slotCount_pos (constant : Constant) : 0 < constant.slotCount := by
  unfold slotCount
  split <;> decide

end Constant

/-- How many slots some constants take together. -/
def slotTotal (constants : List Constant) : Nat := (constants.map Constant.slotCount).sum

/-! ### Numbers -/

/-- The constants in order, each under the number of its first slot. -/
def numbered (first : Nat) : List Constant → List (Nat × Constant)
  | [] => []
  | constant :: others => (first, constant) :: numbered (first + constant.slotCount) others

theorem numbered_append (first : Nat) (before after : List Constant) :
    numbered first (before ++ after) =
      numbered first before ++ numbered (first + slotTotal before) after := by
  induction before generalizing first with
  | nil => rfl
  | cons constant before ih =>
    simp [numbered, ih, slotTotal, Nat.add_assoc]

theorem le_of_mem_numbered {first number : Nat} {constants : List Constant} {constant : Constant}
    (member : (number, constant) ∈ numbered first constants) : first ≤ number := by
  induction constants generalizing first with
  | nil => cases member
  | cons other others ih =>
    rcases List.mem_cons.mp member with here | behind
    · cases here
      exact Nat.le_refl number
    · exact Nat.le_trans (Nat.le_add_right first _) (ih behind)

theorem mem_numbered_iff (first number : Nat) (constants : List Constant) (constant : Constant) :
    (number, constant) ∈ numbered first constants ↔
      ∃ before after, constants = before ++ constant :: after ∧
        number = first + slotTotal before := by
  constructor
  · intro member
    induction constants generalizing first with
    | nil => cases member
    | cons other others ih =>
      rcases List.mem_cons.mp member with here | behind
      · cases here
        exact ⟨[], others, rfl, rfl⟩
      · obtain ⟨before, after, rfl, place⟩ := ih _ behind
        refine ⟨other :: before, after, rfl, ?_⟩
        simp only [place, slotTotal, List.map_cons, List.sum_cons]
        omega
  · rintro ⟨before, after, rfl, rfl⟩
    simp [numbered_append, numbered]

/-- A constant is found at the slot that its number tells. -/
theorem mem_numbered_iff_slots (first i : Nat) (constants : List Constant) (constant : Constant) :
    (first + i, constant) ∈ numbered first constants ↔
      (constants.flatMap Constant.slots)[i]? = some (some constant) := by
  induction constants generalizing first i with
  | nil => simp [numbered]
  | cons other others ih =>
    rw [numbered, List.mem_cons, List.flatMap_cons]
    -- The slots of the first constant hold nothing else, and those behind shift by their number.
    by_cases inside : i < other.slotCount
    · rw [List.getElem?_append_left (by rwa [Constant.length_slots]), Constant.slots_getElem?]
      constructor
      · rintro (here | behind)
        · obtain ⟨place, rfl⟩ := Prod.mk.inj here
          exact ⟨rfl, by omega⟩
        · have := le_of_mem_numbered behind
          omega
      · rintro ⟨rfl, rfl⟩
        exact .inl rfl
    · obtain ⟨j, rfl⟩ := Nat.exists_eq_add_of_le (Nat.le_of_not_lt inside)
      have positive := other.slotCount_pos
      rw [List.getElem?_append_right (by rw [Constant.length_slots]; omega), Constant.length_slots,
        Nat.add_sub_cancel_left, ← ih (first + other.slotCount), Nat.add_assoc]
      refine or_iff_right fun here => ?_
      obtain ⟨place, _⟩ := Prod.mk.inj here
      omega

namespace ConstantPool

/-- The pool that holds these constants in order. -/
def ofConstants (constants : List Constant) : ConstantPool :=
  ofSlots (none :: constants.flatMap Constant.slots)

/-! ### Finding constants -/

theorem get_eq_ok_iff (pool : ConstantPool) (index : UInt16) (constant : Constant) :
    pool.get index = .ok constant ↔ pool.slots[index.toNat]? = some (some constant) := by
  unfold get
  split
  next found => simp [found]
  next absent => simpa using absent constant

theorem get_ofConstants (constants : List Constant) (index : UInt16) (constant : Constant) :
    (ofConstants constants).get index = .ok constant ↔
      ∃ before after, constants = before ++ constant :: after ∧
        index.toNat = slotTotal before + 1 := by
  rw [get_eq_ok_iff, ofConstants, slots_ofSlots, List.getElem?_toArray]
  cases place : index.toNat with
  | zero => simp
  | succ i =>
    rw [List.getElem?_cons_succ, ← mem_numbered_iff_slots 1, mem_numbered_iff]
    simp only [Nat.add_comm 1, Nat.add_right_cancel_iff]

theorem ne_zero_of_get {constants : List Constant} {index : UInt16} {constant : Constant}
    (found : (ofConstants constants).get index = .ok constant) : index ≠ 0 := by
  rintro rfl
  obtain ⟨before, after, _, place⟩ := (get_ofConstants _ _ _).mp found
  cases place

/-! ### Growing pools -/

/-- Finds everything that another pool finds. -/
def Includes (pool other : ConstantPool) : Prop :=
  ∀ index constant, other.get index = .ok constant → pool.get index = .ok constant

theorem Includes.refl (pool : ConstantPool) : pool.Includes pool :=
  fun _ _ found => found

theorem Includes.trans {pool other least : ConstantPool} (outer : pool.Includes other)
    (inner : other.Includes least) : pool.Includes least :=
  fun index constant found => outer index constant (inner index constant found)

theorem includes_append (constants more : List Constant) :
    (ofConstants (constants ++ more)).Includes (ofConstants constants) := by
  intro index constant found
  rw [get_ofConstants] at found ⊢
  obtain ⟨before, after, rfl, place⟩ := found
  exact ⟨before, after ++ more, by simp, place⟩

/-- The constant that is added next stands in the first slot not yet taken. -/
theorem get_next (constants : List Constant) (constant : Constant)
    (room : slotTotal constants + 1 ≤ 65535) :
    (ofConstants (constants ++ [constant])).get (.ofNat (slotTotal constants + 1)) =
      .ok constant := by
  rw [get_ofConstants]
  refine ⟨constants, [], rfl, ?_⟩
  rw [UInt16.toNat_ofNat']
  omega

/-! ### References -/

variable {pool other : ConstantPool} {index : UInt16}

private theorem decoded_of_get {bytes : List UInt8} (found : pool.get index = .ok (.utf8 bytes)) :
    pool.decoded index = Text.ofModifiedUtf8 bytes := by
  rw [get_eq_ok_iff] at found
  rw [decoded, pool.texts_eq, Array.getElem?_map, found]
  rfl

theorem text_eq_ok_iff {text : String} :
    pool.text index = .ok text ↔
      ∃ bytes, pool.get index = .ok (.utf8 bytes) ∧ Text.ofModifiedUtf8 bytes = text := by
  unfold ConstantPool.text
  rw [bind_eq_ok_iff]
  constructor
  · rintro ⟨constant, found, answered⟩
    split at answered
    next bytes => exact ⟨bytes, found, (decoded_of_get found).symm.trans (Except.ok.inj answered)⟩
    next => cases answered
  · rintro ⟨bytes, found, rfl⟩
    exact ⟨_, found, congrArg Except.ok (decoded_of_get found)⟩

theorem className_eq_ok_iff {name : String} :
    pool.className index = .ok name ↔
      ∃ slot, pool.get index = .ok (.classRef slot) ∧ pool.text slot = .ok name := by
  unfold className
  rw [bind_eq_ok_iff]
  constructor
  · rintro ⟨constant, found, answered⟩
    split at answered
    next slot => exact ⟨slot, found, answered⟩
    next => cases answered
  · rintro ⟨slot, found, named⟩
    exact ⟨_, found, named⟩

theorem nameAndTypeDescriptor_eq_ok_iff {descriptor : String} :
    pool.nameAndTypeDescriptor index = .ok descriptor ↔
      ∃ name slot, pool.get index = .ok (.nameAndType name slot) ∧
        pool.text slot = .ok descriptor := by
  unfold nameAndTypeDescriptor
  rw [bind_eq_ok_iff]
  constructor
  · rintro ⟨constant, found, answered⟩
    split at answered
    next name slot => exact ⟨name, slot, found, answered⟩
    next => cases answered
  · rintro ⟨name, slot, found, described⟩
    exact ⟨_, found, described⟩

theorem check_eq_ok_iff {reference : UInt16 × Expected} :
    pool.check reference = .ok () ↔
      ∃ constant, pool.get reference.1 = .ok constant ∧ reference.2.accepts constant = true := by
  unfold check
  rw [bind_eq_ok_iff]
  constructor
  · rintro ⟨constant, found, answered⟩
    split at answered
    next accepted => exact ⟨constant, found, accepted⟩
    next => cases answered
  · rintro ⟨constant, found, accepted⟩
    exact ⟨constant, found, by rw [if_pos accepted]; rfl⟩

theorem Includes.text (includes : pool.Includes other) {text : String}
    (found : other.text index = .ok text) : pool.text index = .ok text := by
  rw [text_eq_ok_iff] at found ⊢
  obtain ⟨bytes, held, same⟩ := found
  exact ⟨bytes, includes _ _ held, same⟩

theorem Includes.className (includes : pool.Includes other) {name : String}
    (found : other.className index = .ok name) : pool.className index = .ok name := by
  rw [className_eq_ok_iff] at found ⊢
  obtain ⟨slot, held, named⟩ := found
  exact ⟨slot, includes _ _ held, includes.text named⟩

theorem Includes.check (includes : pool.Includes other) {reference : UInt16 × Expected}
    (found : other.check reference = .ok ()) : pool.check reference = .ok () := by
  rw [check_eq_ok_iff] at found ⊢
  obtain ⟨constant, held, accepted⟩ := found
  exact ⟨constant, includes _ _ held, accepted⟩

theorem forM_eq_ok_iff {α : Type} (items : List α) (test : α → Except DecodeError Unit) :
    items.forM test = .ok () ↔ ∀ item ∈ items, test item = .ok () := by
  induction items with
  | nil => simp [pure, Except.pure]
  | cons item items ih =>
    simp only [List.forM_eq_forM, List.forM_cons, List.mem_cons, forall_eq_or_imp] at ih ⊢
    rw [bind_eq_ok_iff, ← ih]
    constructor
    · rintro ⟨⟨⟩, first, others⟩
      exact ⟨first, others⟩
    · rintro ⟨first, others⟩
      exact ⟨⟨⟩, first, others⟩

theorem checkReferences_eq_ok_iff (pool : ConstantPool) :
    pool.checkReferences = .ok () ↔
      ∀ constant, some constant ∈ pool.slots.toList →
        ∀ reference ∈ constant.references, pool.check reference = .ok () := by
  unfold checkReferences
  rw [forM_eq_ok_iff]
  constructor
  · intro all constant held reference member
    exact all reference (List.mem_flatMap.mpr ⟨some constant, held, member⟩)
  · intro all reference member
    obtain ⟨slot, held, inSlot⟩ := List.mem_flatMap.mp member
    cases slot with
    | none => cases inSlot
    | some constant => exact all constant held reference inSlot

theorem mem_slots_ofConstants (constants : List Constant) (constant : Constant) :
    some constant ∈ (ofConstants constants).slots.toList ↔ constant ∈ constants := by
  simp only [ofConstants, slots_ofSlots, List.mem_cons, reduceCtorEq, false_or, List.mem_flatMap]
  constructor
  · rintro ⟨held, member, inSlots⟩
    unfold Constant.slots at inSlots
    split at inSlots <;> simp at inSlots <;> simpa [inSlots] using member
  · intro member
    refine ⟨constant, member, ?_⟩
    unfold Constant.slots
    split <;> simp

/-! ### Reading pools -/

/-- Constants that are read into a number of slots. A wide one in the last of them has no second
slot. -/
inductive Fills : Nat → List Constant → Prop
  | none : Fills 0 []
  | last {constant : Constant} (wide : constant.isWide = true) : Fills 1 [constant]
  | next {count : Nat} {others : List Constant} (constant : Constant) (behind : Fills count others) :
    Fills (count + constant.slotCount) (constant :: others)

theorem fills_slotTotal (constants : List Constant) : Fills (slotTotal constants) constants := by
  induction constants with
  | nil => exact .none
  | cons constant constants ih =>
    have total : slotTotal (constant :: constants) = slotTotal constants + constant.slotCount := by
      simp [slotTotal, Nat.add_comm]
    exact total ▸ .next constant ih

theorem length_flatMap_slots (constants : List Constant) :
    (constants.flatMap Constant.slots).length = slotTotal constants := by
  simp only [List.length_flatMap, Constant.length_slots]
  rfl

/-- A wide constant fills two slots at once, so the induction is on the constants. -/
theorem takes_readSlots {count : Nat} {constants : List Constant} (fills : Fills count constants)
    (filled : List (Option Constant)) (fits : ∀ constant ∈ constants, constant.Fits) :
    (readSlots filled count).Takes (constants.flatMap Constant.encode)
      (filled.reverse ++ (constants.flatMap Constant.slots).take count) := by
  induction fills generalizing filled with
  | none =>
    rw [List.flatMap_nil, List.flatMap_nil, List.take_nil, List.append_nil]
    exact .pure _
  | @last constant wide =>
    rw [List.forall_mem_singleton] at fits
    rw [readSlots, List.flatMap_singleton, List.flatMap_singleton]
    rw [← List.append_nil constant.encode]
    refine (constant.takes_read fits).bind ?_
    simpa [wide, Constant.slots] using Takes.pure (some constant :: filled).reverse
  | @next count others constant _ ih =>
    rw [List.forall_mem_cons] at fits
    rw [List.flatMap_cons, List.flatMap_cons]
    by_cases wide : constant.isWide
    · have two : constant.slotCount = 2 := by simp [Constant.slotCount, wide]
      rw [two, readSlots]
      refine (constant.takes_read fits.1).bind ?_
      have rest := ih (none :: some constant :: filled) fits.2
      simpa [wide, Constant.slots] using rest
    · have one : constant.slotCount = 1 := by simp [Constant.slotCount, wide]
      rw [one, readSlots]
      refine (constant.takes_read fits.1).bind ?_
      have rest := ih (some constant :: filled) fits.2
      simpa [wide, Constant.slots] using rest

theorem takes_read (constants : List Constant) (fits : ∀ constant ∈ constants, constant.Fits)
    (few : slotTotal constants + 1 ≤ 65535)
    (checked : (ofConstants constants).checkReferences = .ok ()) :
    read.Takes (bytes16 (slotTotal constants + 1) ++ constants.flatMap Constant.encode)
      (ofConstants constants) := by
  refine (Takes.bytes16 _).bind ?_
  have count : (UInt16.ofNat (slotTotal constants + 1)).toNat - 1 = slotTotal constants := by
    rw [UInt16.toNat_ofNat']
    omega
  rw [count, ← List.append_nil (constants.flatMap Constant.encode)]
  have taken : (constants.flatMap Constant.slots).take (slotTotal constants) =
      constants.flatMap Constant.slots :=
    List.take_of_length_le (Nat.le_of_eq (length_flatMap_slots constants))
  have slots := takes_readSlots (fills_slotTotal constants) [none] fits
  rw [taken] at slots
  exact slots.bind (.lift checked (.pure _))

/-! ### What the constants mention -/

theorem text_of_check (checked : pool.check (index, .utf8) = .ok ()) :
    ∃ text, pool.text index = .ok text := by
  obtain ⟨constant, found, accepted⟩ := check_eq_ok_iff.mp checked
  cases constant <;> simp only [Expected.accepts, Bool.false_eq_true] at accepted
  exact ⟨_, text_eq_ok_iff.mpr ⟨_, found, rfl⟩⟩

theorem check_of_text {text : String} (found : pool.text index = .ok text) :
    pool.check (index, .utf8) = .ok () := by
  obtain ⟨bytes, held, _⟩ := text_eq_ok_iff.mp found
  exact check_eq_ok_iff.mpr ⟨_, held, rfl⟩

theorem check_of_className {name : String} (found : pool.className index = .ok name) :
    pool.check (index, .classRef) = .ok () := by
  obtain ⟨slot, held, _⟩ := className_eq_ok_iff.mp found
  exact check_eq_ok_iff.mpr ⟨_, held, rfl⟩

/-- Whether a constant mentions a type by the text it refers to. -/
def Mentions (pool : ConstantPool) (mention : Mention) : Constant → Prop
  | .classRef name => ∃ text, pool.text name = .ok text ∧ mention = .className text
  | .nameAndType _ descriptor | .methodType descriptor =>
    ∃ text, pool.text descriptor = .ok text ∧ mention = .typeText text
  | _ => False

theorem mentions_className {constants : List Constant} {name : String}
    (found : (ofConstants constants).className index = .ok name) :
    ∃ constant ∈ constants, (ofConstants constants).Mentions (.className name) constant := by
  obtain ⟨slot, held, named⟩ := className_eq_ok_iff.mp found
  obtain ⟨before, after, split, _⟩ := (get_ofConstants _ _ _).mp held
  exact ⟨.classRef slot, by simp [split], name, named, rfl⟩

private theorem mentionsOf_of_checked {constant : Constant}
    (checked : ∀ reference ∈ constant.references, pool.check reference = .ok ()) :
    ∃ found, pool.mentionsOf (some constant) = .ok found ∧
      ∀ mention, mention ∈ found ↔ pool.Mentions mention constant := by
  cases constant with
  | classRef name =>
    obtain ⟨text, named⟩ := text_of_check (checked (name, .utf8) (by simp [Constant.references]))
    exact ⟨[.className text], by simp [mentionsOf, named], by simp [Mentions, named]⟩
  | nameAndType name descriptor =>
    obtain ⟨text, described⟩ :=
      text_of_check (checked (descriptor, .utf8) (by simp [Constant.references]))
    exact ⟨[.typeText text], by simp [mentionsOf, described], by simp [Mentions, described]⟩
  | methodType descriptor =>
    obtain ⟨text, described⟩ :=
      text_of_check (checked (descriptor, .utf8) (by simp [Constant.references]))
    exact ⟨[.typeText text], by simp [mentionsOf, described], by simp [Mentions, described]⟩
  | _ => exact ⟨[], rfl, by simp [Mentions]⟩

/-- Once the references of a pool are checked, none of them can fail to be found again. -/
theorem mentions_of_checked (checked : pool.checkReferences = .ok ()) :
    ∃ found, pool.mentions = .ok found ∧ ∀ mention, mention ∈ found ↔
      ∃ constant, some constant ∈ pool.slots.toList ∧ pool.Mentions mention constant := by
  rw [checkReferences_eq_ok_iff] at checked
  suffices all : ∃ parts, pool.slots.toList.mapM pool.mentionsOf = .ok parts ∧
      ∀ mention, mention ∈ parts.flatten ↔
        ∃ constant, some constant ∈ pool.slots.toList ∧ pool.Mentions mention constant by
    obtain ⟨parts, found, same⟩ := all
    exact ⟨parts.flatten, by simp [mentions, found], same⟩
  -- What is looked up stays the whole pool while the induction walks its slots.
  generalize pool.slots.toList = slots at checked ⊢
  induction slots with
  | nil => exact ⟨[], rfl, by simp⟩
  | cons slot slots ih =>
    obtain ⟨parts, found, same⟩ := ih fun constant held => checked constant (.tail _ held)
    cases slot with
    | none =>
      refine ⟨[] :: parts, ?_, by simpa using same⟩
      simp only [List.mapM_cons, mentionsOf, found]
      rfl
    | some constant =>
      obtain ⟨part, here, these⟩ := mentionsOf_of_checked (checked constant (.head _))
      refine ⟨part :: parts, ?_, fun mention => ?_⟩
      · simp only [List.mapM_cons, here, found]
        rfl
      · simp [List.flatten_cons, these, same, or_and_right, exists_or]

end ConstantPool

end PackageAudit.ClassFile
