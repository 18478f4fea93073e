import PackageAudit.Proofs.ClassFile.PoolLayout
/-!
Which constant pools are accepted, and what is found in them.

Constants are numbered by the slots they take, so behind a long or double the numbers run ahead of
the constants. The declared count is one more than the number of slots, where the second slot of a
wide constant at the end need not be counted. A pool is accepted when every reference points at a
constant of the right kind, no matter on which side it stands; otherwise the first reference that
does not is reported.
-/

namespace PackageAudit.ClassFile

open Reader

/-! ### References and their targets -/

namespace Constant

/-- The references of a constant by their positions, each with what it must point at. -/
inductive Refers : Constant → Nat → UInt16 → Expected → Prop
  | className (name : UInt16) : Refers (.classRef name) 0 name .utf8
  | moduleName (name : UInt16) : Refers (.module name) 0 name .utf8
  | packageName (name : UInt16) : Refers (.package name) 0 name .utf8
  | stringText (text : UInt16) : Refers (.string text) 0 text .utf8
  | methodTypeText (descriptor : UInt16) : Refers (.methodType descriptor) 0 descriptor .utf8
  | memberName (name descriptor : UInt16) : Refers (.nameAndType name descriptor) 0 name .utf8
  | memberDescriptor (name descriptor : UInt16) :
    Refers (.nameAndType name descriptor) 1 descriptor .utf8
  | fieldOwner (owner member : UInt16) : Refers (.fieldRef owner member) 0 owner .classRef
  | field (owner member : UInt16) : Refers (.fieldRef owner member) 1 member .nameAndType
  | methodOwner (owner member : UInt16) : Refers (.methodRef owner member) 0 owner .classRef
  | method (owner member : UInt16) : Refers (.methodRef owner member) 1 member .nameAndType
  | interfaceMethodOwner (owner member : UInt16) :
    Refers (.interfaceMethodRef owner member) 0 owner .classRef
  | interfaceMethod (owner member : UInt16) :
    Refers (.interfaceMethodRef owner member) 1 member .nameAndType
  | handled (kind : UInt8) (reference : UInt16) :
    Refers (.methodHandle kind reference) 0 reference .memberReference
  | dynamicMember (bootstrap member : UInt16) :
    Refers (.dynamic bootstrap member) 0 member .nameAndType
  | invokeDynamicMember (bootstrap member : UInt16) :
    Refers (.invokeDynamic bootstrap member) 0 member .nameAndType

theorem references_getElem?_eq_some_iff (constant : Constant) (position : Nat) (index : UInt16)
    (expected : Expected) :
    constant.references[position]? = some (index, expected) ↔
      constant.Refers position index expected := by
  constructor
  · intro found
    cases constant <;> rcases position with _ | _ | position <;>
      simp only [references, List.getElem?_nil, List.getElem?_cons_zero, List.getElem?_cons_succ,
        reduceCtorEq, Option.some.injEq, Prod.mk.injEq] at found <;>
      obtain ⟨rfl, rfl⟩ := found <;> constructor
  · rintro (_ | _ | _ | _ | _ | _ | _ | _ | _ | _ | _ | _ | _ | _ | _ | _) <;> rfl

end Constant

/-- The constants that a reference may point at. -/
inductive Expected.Admits : Expected → Constant → Prop
  | utf8 (bytes : List UInt8) : Admits .utf8 (.utf8 bytes)
  | classRef (name : UInt16) : Admits .classRef (.classRef name)
  | nameAndType (name descriptor : UInt16) : Admits .nameAndType (.nameAndType name descriptor)
  | field (owner member : UInt16) : Admits .memberReference (.fieldRef owner member)
  | method (owner member : UInt16) : Admits .memberReference (.methodRef owner member)
  | interfaceMethod (owner member : UInt16) :
    Admits .memberReference (.interfaceMethodRef owner member)

theorem Expected.accepts_iff (expected : Expected) (constant : Constant) :
    expected.accepts constant = true ↔ expected.Admits constant := by
  constructor
  · intro accepted
    cases expected <;> cases constant <;>
      first | constructor | simp only [accepts, Bool.false_eq_true] at accepted
  · rintro (_ | _ | _ | _ | _ | _) <;> rfl

/-! ### Numbers -/

/-- A constant stands at the number of its first slot; slots are numbered from one. -/
def StandsAt (constants : List Constant) (number : Nat) (constant : Constant) : Prop :=
  (number, constant) ∈ numbered 1 constants

instance (constants : List Constant) (number : Nat) (constant : Constant) :
    Decidable (StandsAt constants number constant) :=
  inferInstanceAs (Decidable (_ ∈ _))

theorem not_standsAt_zero (constants : List Constant) (constant : Constant) :
    ¬ StandsAt constants 0 constant :=
  fun stands => absurd (le_of_mem_numbered stands) (Nat.not_succ_le_zero 0)

theorem standsAt_iff_slots (constants : List Constant) (number : Nat) (constant : Constant) :
    StandsAt constants number constant ↔
      (none :: constants.flatMap Constant.slots)[number]? = some (some constant) := by
  cases number with
  | zero => exact ⟨fun stands => absurd stands (not_standsAt_zero constants constant), nofun⟩
  | succ i => rw [List.getElem?_cons_succ, ← mem_numbered_iff_slots 1, StandsAt, Nat.add_comm]

theorem StandsAt.unique {constants : List Constant} {number : Nat} {constant other : Constant}
    (here : StandsAt constants number constant) (there : StandsAt constants number other) :
    constant = other := by
  rw [standsAt_iff_slots] at here there
  rw [here] at there
  cases there
  rfl

/-- What stands before a constant is known by its number. -/
theorem StandsAt.mem_of_lt {before after : List Constant} {constant : Constant} {number : Nat}
    (stands : StandsAt (before ++ after) number constant) (lower : number < 1 + slotTotal before) :
    StandsAt before number constant := by
  rw [StandsAt, numbered_append, List.mem_append] at stands
  rcases stands with here | behind
  · exact here
  · exact absurd (le_of_mem_numbered behind) (Nat.not_le_of_lt lower)

/-- The second slot of a wide constant names nothing. -/
theorem StandsAt.not_succ {constants : List Constant} {number : Nat} {constant : Constant}
    (stands : StandsAt constants number constant) (wide : constant.isWide = true)
    (other : Constant) : ¬ StandsAt constants (number + 1) other := by
  obtain ⟨before, after, rfl, rfl⟩ := (mem_numbered_iff _ _ _ _).mp stands
  have two : constant.slotCount = 2 := by simp [Constant.slotCount, wide]
  intro behind
  -- Those before it end where it begins, and those behind it begin two slots further.
  rw [StandsAt, numbered_append, List.mem_append, numbered, List.mem_cons, two] at behind
  rcases behind with earlier | here | later
  · obtain ⟨least, others, rfl, place⟩ := (mem_numbered_iff _ _ _ _).mp earlier
    simp only [slotTotal, List.map_append, List.map_cons, List.sum_append, List.sum_cons] at place
    have := other.slotCount_pos
    omega
  · obtain ⟨place, _⟩ := Prod.mk.inj here
    omega
  · have := le_of_mem_numbered later
    omega

/-! ### Declared counts -/

/-- A count that reaches the last constant and no further than the slots go. -/
structure Declares (count : Nat) (constants : List Constant) : Prop where
  reaches : ∀ number constant, StandsAt constants number constant → number + 1 ≤ count
  within : count ≤ slotTotal constants + 1

instance (count : Nat) (constants : List Constant) : Decidable (Declares count constants) :=
  decidable_of_iff
    ((∀ entry ∈ numbered 1 constants, entry.1 + 1 ≤ count) ∧ count ≤ slotTotal constants + 1)
    ⟨fun both => ⟨fun _ _ stands => both.1 _ stands, both.2⟩,
      fun declares => ⟨fun entry member => declares.reaches entry.1 entry.2 member,
        declares.within⟩⟩

private theorem fills_of_numbered (first : Nat) {count : Nat} {constants : List Constant}
    (reaches : ∀ number constant, (number, constant) ∈ numbered first constants →
      number < first + count)
    (within : count ≤ slotTotal constants) : ConstantPool.Fills count constants := by
  induction constants generalizing first count with
  | nil =>
    obtain rfl : count = 0 := Nat.le_zero.mp within
    exact .none
  | cons constant others ih =>
    have here := reaches first constant (.head _)
    have total : slotTotal (constant :: others) = constant.slotCount + slotTotal others := rfl
    by_cases cut : count < constant.slotCount
    · -- Only the second slot of the last constant may be left out.
      have wide : constant.isWide = true := by
        by_contra narrow
        simp only [Constant.slotCount, narrow, if_false] at cut
        omega
      have two : constant.slotCount = 2 := by simp [Constant.slotCount, wide]
      obtain rfl : count = 1 := by omega
      cases others with
      | nil => exact .last wide
      | cons other others =>
        have behind := reaches (first + constant.slotCount) other (.tail _ (.head _))
        omega
    · obtain ⟨rest, rfl⟩ := Nat.exists_eq_add_of_le (Nat.le_of_not_lt cut)
      rw [Nat.add_comm]
      refine .next constant (ih (first + constant.slotCount) ?_ (by omega))
      intro number other member
      have := reaches number other (.tail _ member)
      omega

theorem Declares.fills {count : Nat} {constants : List Constant}
    (declares : Declares count constants) : ConstantPool.Fills (count - 1) constants := by
  have within := declares.within
  refine fills_of_numbered 1 (fun number constant member => ?_) (by omega)
  have reaches := declares.reaches number constant member
  omega

private theorem numbered_of_fills {count : Nat} {constants : List Constant}
    (fills : ConstantPool.Fills count constants) :
    (∀ first number constant, (number, constant) ∈ numbered first constants →
      number < first + count) ∧ count ≤ slotTotal constants := by
  induction fills with
  | none => exact ⟨nofun, Nat.le_refl 0⟩
  | @last constant wide =>
    constructor
    · intro first number other member
      cases List.mem_singleton.mp member
      exact Nat.lt_succ_self first
    · exact constant.slotCount_pos
  | @next count others constant _ ih =>
    obtain ⟨reaches, within⟩ := ih
    constructor
    · intro first number other member
      have positive := constant.slotCount_pos
      rcases List.mem_cons.mp member with here | behind
      · cases here
        omega
      · have := reaches _ number other behind
        omega
    · simp only [slotTotal, List.map_cons, List.sum_cons] at within ⊢
      omega

theorem ConstantPool.Fills.declares {count : Nat} {constants : List Constant}
    (fills : ConstantPool.Fills (count - 1) constants) : Declares count constants := by
  obtain ⟨reaches, within⟩ := numbered_of_fills fills
  refine ⟨fun number constant stands => ?_, by omega⟩
  have := reaches 1 number constant stands
  have := le_of_mem_numbered stands
  omega

namespace ConstantPool

/-- The pool that holds these constants in as many slots as are declared. -/
def declaring (count : Nat) (constants : List Constant) : ConstantPool :=
  ofSlots (none :: (constants.flatMap Constant.slots).take (count - 1))

variable {count : Nat} {constants : List Constant}

theorem size_declaring (declares : Declares count constants) :
    (declaring count constants).size = max count 1 := by
  have within := declares.within
  simp only [declaring, size, slots_ofSlots, List.size_toArray, List.length_cons, List.length_take,
    length_flatMap_slots]
  omega

theorem slots_declaring_getElem? (declares : Declares count constants) (number : Nat)
    (constant : Constant) :
    (declaring count constants).slots[number]? = some (some constant) ↔
      StandsAt constants number constant := by
  rw [declaring, slots_ofSlots, List.getElem?_toArray, standsAt_iff_slots]
  cases number with
  | zero => simp
  | succ i =>
    rw [List.getElem?_cons_succ, List.getElem?_cons_succ, List.getElem?_take]
    split
    next => rfl
    next cut =>
      -- No constant begins behind the declared count, so nothing that stands is cut off.
      refine ⟨nofun, fun found => absurd ?_ cut⟩
      have stands : StandsAt constants (i + 1) constant := by
        rwa [standsAt_iff_slots, List.getElem?_cons_succ]
      have reaches := declares.reaches _ _ stands
      omega

theorem get_declaring (declares : Declares count constants) (index : UInt16)
    (constant : Constant) :
    (declaring count constants).get index = .ok constant ↔
      StandsAt constants index.toNat constant := by
  rw [get_eq_ok_iff, slots_declaring_getElem? declares]

theorem mem_slots_declaring (declares : Declares count constants) (constant : Constant) :
    some constant ∈ (declaring count constants).slots.toList ↔
      ∃ number, StandsAt constants number constant := by
  simp only [List.mem_iff_getElem?, Array.getElem?_toList, slots_declaring_getElem? declares]

theorem get_eq_error_iff (pool : ConstantPool) (index : UInt16) (error : DecodeError) :
    pool.get index = .error error ↔
      (∀ constant, pool.get index ≠ .ok constant) ∧ error = .indexOutOfRange index pool.size := by
  unfold get
  split
  next constant _ => simp
  next => simp [eq_comm]

/-- A pool of some size that holds these constants by their numbers and nothing else. -/
structure Holds (pool : ConstantPool) (constants : List Constant) (size : Nat) : Prop where
  size_eq : pool.size = size
  found : ∀ index constant, StandsAt constants index.toNat constant → pool.get index = .ok constant
  zero : pool.get 0 = .error (.indexOutOfRange 0 size)
  behindWide : ∀ number constant, StandsAt constants number constant → constant.isWide = true →
    ∀ index : UInt16, index.toNat = number + 1 →
      pool.get index = .error (.indexOutOfRange index size)
  elsewhere : ∀ index : UInt16, (∀ constant, ¬ StandsAt constants index.toNat constant) →
    pool.get index = .error (.indexOutOfRange index size)

theorem holds_declaring (declares : Declares count constants) :
    (declaring count constants).Holds constants (max count 1) := by
  have elsewhere : ∀ index : UInt16, (∀ constant, ¬ StandsAt constants index.toNat constant) →
      (declaring count constants).get index = .error (.indexOutOfRange index (max count 1)) := by
    intro index nothing
    rw [get_eq_error_iff, size_declaring declares]
    exact ⟨fun constant found => nothing constant ((get_declaring declares _ _).mp found), rfl⟩
  exact {
    size_eq := size_declaring declares
    found := fun index constant => (get_declaring declares index constant).mpr
    zero := elsewhere 0 (not_standsAt_zero constants)
    behindWide := fun number constant stands wide index next =>
      elsewhere index fun other => next ▸ stands.not_succ wide other
    elsewhere := elsewhere }

/-! ### Checking references -/

/-- Something of the right kind stands where a reference points. -/
def Met (constants : List Constant) (index : UInt16) (expected : Expected) : Prop :=
  ∃ target, StandsAt constants index.toNat target ∧ expected.Admits target

/-- What is wrong with a reference: nothing stands where it points, or something of another kind. -/
inductive Unmet (constants : List Constant) (size : Nat) (index : UInt16) (expected : Expected) :
    DecodeError → Prop
  | nothing (free : ∀ target, ¬ StandsAt constants index.toNat target) :
    Unmet constants size index expected (.indexOutOfRange index size)
  | another {target : Constant} (stands : StandsAt constants index.toNat target)
    (refused : ¬ expected.Admits target) :
    Unmet constants size index expected (.unexpectedConstant index expected)

/-- The constant that stands at a number holds this reference at this position. -/
def ReferenceAt (constants : List Constant) (number position : Nat) (index : UInt16)
    (expected : Expected) : Prop :=
  ∃ constant, StandsAt constants number constant ∧ constant.Refers position index expected

/-- The error is that of the first reference that is not met, by the number of its constant and then
by its position in it. -/
def FirstUnmet (constants : List Constant) (size : Nat) (error : DecodeError) : Prop :=
  ∃ number position index expected,
    ReferenceAt constants number position index expected ∧
      Unmet constants size index expected error ∧
      ∀ lower place other kind, ReferenceAt constants lower place other kind →
        lower < number ∨ lower = number ∧ place < position → Met constants other kind

theorem check_declaring_ok (declares : Declares count constants) (index : UInt16)
    (expected : Expected) :
    (declaring count constants).check (index, expected) = .ok () ↔ Met constants index expected := by
  simp only [check_eq_ok_iff, get_declaring declares, Expected.accepts_iff, Met]

theorem unmet_of_check (declares : Declares count constants) {index : UInt16}
    {expected : Expected} {error : DecodeError}
    (refused : (declaring count constants).check (index, expected) = .error error) :
    Unmet constants (max count 1) index expected error := by
  unfold check at refused
  cases found : (declaring count constants).get index with
  | ok target =>
    simp only [found, bind, Except.bind] at refused
    split at refused
    next => cases refused
    next other =>
      cases refused
      refine .another ((get_declaring declares index target).mp found) ?_
      rwa [← Expected.accepts_iff]
  | error missing =>
    simp only [found, bind, Except.bind] at refused
    cases refused
    obtain ⟨nothing, rfl⟩ := (get_eq_error_iff _ _ _).mp found
    rw [size_declaring declares]
    exact .nothing fun target stands =>
      nothing target ((get_declaring declares index target).mpr stands)

/-- A loop fails with the error of the first item that fails. -/
private theorem exists_of_forM_eq_error {α : Type} {items : List α}
    {test : α → Except DecodeError Unit} {error : DecodeError}
    (failed : items.forM test = .error error) :
    ∃ before item after, items = before ++ item :: after ∧
      (∀ earlier ∈ before, test earlier = .ok ()) ∧ test item = .error error := by
  induction items with
  | nil => cases failed
  | cons item items ih =>
    simp only [List.forM_eq_forM, List.forM_cons] at failed ih
    cases here : test item with
    | error first =>
      rw [here] at failed
      cases failed
      exact ⟨[], item, items, rfl, nofun, here⟩
    | ok =>
      rw [here] at failed
      obtain ⟨before, last, after, rfl, passed, refused⟩ := ih failed
      refine ⟨item :: before, last, after, rfl, ?_, refused⟩
      exact List.forall_mem_cons.mpr ⟨here, passed⟩

private theorem forM_flatMap {α β : Type} (items : List α) (parts : α → List β)
    (test : β → Except DecodeError Unit) :
    (items.flatMap parts).forM test = items.forM fun item => (parts item).forM test := by
  induction items with
  | nil => rfl
  | cons item items ih =>
    simp only [List.forM_eq_forM] at ih ⊢
    rw [List.flatMap_cons, List.forM_append, List.forM_cons, ih]

/-- The second slots of wide constants hold no references, be they declared or not. -/
private theorem flatMap_references {count : Nat} {constants : List Constant}
    (fills : Fills count constants) :
    (((constants.flatMap Constant.slots).take count).flatMap fun slot =>
      (slot.map Constant.references).getD []) = constants.flatMap Constant.references := by
  induction fills with
  | none => rfl
  | last wide => simp [Constant.slots, wide]
  | @next count others constant _ ih =>
    rw [List.flatMap_cons, Nat.add_comm, ← Constant.length_slots, List.take_length_add_append,
      List.flatMap_append, List.flatMap_cons, ih]
    congr 1
    unfold Constant.slots
    split <;> simp

theorem checkReferences_declaring (declares : Declares count constants) :
    (declaring count constants).checkReferences =
      constants.forM fun constant =>
        constant.references.forM (declaring count constants).check := by
  -- The loop runs over slots, and empty ones contribute no references.
  rw [← forM_flatMap, ← flatMap_references declares.fills]
  rfl

theorem exists_of_referenceAt {number position : Nat} {index : UInt16} {expected : Expected}
    (held : ReferenceAt constants number position index expected) :
    ∃ constant ∈ constants, (index, expected) ∈ constant.references := by
  obtain ⟨constant, stands, refers⟩ := held
  obtain ⟨before, after, rfl, _⟩ := (mem_numbered_iff _ _ _ _).mp stands
  refine ⟨constant, by simp, List.mem_of_getElem? (i := position) ?_⟩
  rwa [Constant.references_getElem?_eq_some_iff]

theorem referenceAt_of_mem {constant : Constant} (member : constant ∈ constants) {index : UInt16}
    {expected : Expected} (held : (index, expected) ∈ constant.references) :
    ∃ number position, ReferenceAt constants number position index expected := by
  obtain ⟨before, after, split⟩ := List.append_of_mem member
  obtain ⟨position, place⟩ := List.mem_iff_getElem?.mp held
  refine ⟨1 + slotTotal before, position, constant, ?_, ?_⟩
  · exact (mem_numbered_iff _ _ _ _).mpr ⟨before, after, split, rfl⟩
  · rwa [← Constant.references_getElem?_eq_some_iff]

theorem checkReferences_declaring_ok (declares : Declares count constants) :
    (declaring count constants).checkReferences = .ok () ↔
      ∀ number position index expected, ReferenceAt constants number position index expected →
        Met constants index expected := by
  simp only [checkReferences_declaring declares, forM_eq_ok_iff]
  constructor
  · intro passed number position index expected held
    obtain ⟨constant, member, refers⟩ := exists_of_referenceAt held
    exact (check_declaring_ok declares _ _).mp (passed constant member _ refers)
  · rintro met constant member ⟨index, expected⟩ refers
    obtain ⟨number, position, held⟩ := referenceAt_of_mem member refers
    exact (check_declaring_ok declares _ _).mpr (met number position index expected held)

theorem firstUnmet_of_checkReferences (declares : Declares count constants) {error : DecodeError}
    (failed : (declaring count constants).checkReferences = .error error) :
    FirstUnmet constants (max count 1) error := by
  rw [checkReferences_declaring declares] at failed
  obtain ⟨before, constant, after, rfl, passed, within⟩ := exists_of_forM_eq_error failed
  obtain ⟨former, ⟨index, expected⟩, latter, split, good, refused⟩ := exists_of_forM_eq_error within
  have stands : StandsAt (before ++ constant :: after) (1 + slotTotal before) constant :=
    (mem_numbered_iff _ _ _ _).mpr ⟨before, after, rfl, rfl⟩
  have refers : constant.Refers former.length index expected := by
    rw [← Constant.references_getElem?_eq_some_iff, split]
    simp
  refine ⟨_, former.length, index, expected, ⟨constant, stands, refers⟩,
    unmet_of_check declares refused, ?_⟩
  rintro lower place other kind ⟨holder, there, held⟩ (smaller | ⟨rfl, sooner⟩)
  · -- A constant before this one, all of whose references were checked.
    obtain ⟨least, others, rfl, _⟩ := (mem_numbered_iff _ _ _ _).mp (there.mem_of_lt smaller)
    have checked := (forM_eq_ok_iff _ _).mp (passed holder (by simp))
    rw [← check_declaring_ok declares]
    refine checked _ (List.mem_of_getElem? (i := place) ?_)
    rwa [Constant.references_getElem?_eq_some_iff]
  · -- A reference of the same constant, before this one.
    obtain rfl := there.unique stands
    rw [← Constant.references_getElem?_eq_some_iff, split, List.getElem?_append_left sooner] at held
    rw [← check_declaring_ok declares]
    exact good _ (List.mem_of_getElem? held)

/-! ### Reading -/

theorem takes_slots {count : UInt16} (fits : ∀ constant ∈ constants, constant.Fits)
    (declares : Declares count.toNat constants) :
    (Reader.u16 >>= fun declared => readSlots [none] (declared.toNat - 1)).Takes
      (encode16 count ++ constants.flatMap Constant.encode)
      (declaring count.toNat constants).slots.toList :=
  (Takes.encode16 count).bind (takes_readSlots declares.fills [none] fits)

theorem read_declaring {count : UInt16} (fits : ∀ constant ∈ constants, constant.Fits)
    (declares : Declares count.toNat constants) (offset : Nat) (rest : List UInt8) :
    read ⟨offset, encode16 count ++ constants.flatMap Constant.encode ++ rest⟩ =
      (declaring count.toNat constants).checkReferences.map fun _ =>
        (declaring count.toNat constants,
          ⟨offset + (encode16 count ++ constants.flatMap Constant.encode).length, rest⟩) := by
  have slots := takes_slots fits declares offset rest
  have parts : read =
      ((Reader.u16 >>= fun declared => readSlots [none] (declared.toNat - 1)) >>= fun slots =>
        liftM (ofSlots slots).checkReferences >>= fun _ => pure (ofSlots slots)) := by
    simp only [read, bind_assoc]
  rw [parts]
  simp only [bind, StateT.bind] at slots ⊢
  rw [slots]
  have same : ofSlots (declaring count.toNat constants).slots.toList =
      declaring count.toNat constants := rfl
  simp only [Except.bind, same]
  cases (declaring count.toNat constants).checkReferences <;> rfl

/-- Constants behind a count that declares them are read from exactly their bytes. They are accepted
if every reference is met, no matter where, and are then found by their numbers and nowhere else;
otherwise the first reference that is not met is reported. -/
theorem read_declared {constants : List Constant} {count : UInt16}
    (fits : ∀ constant ∈ constants, constant.Fits) (declares : Declares count.toNat constants)
    (offset : Nat) (rest : List UInt8) :
    let bytes := encode16 count ++ constants.flatMap Constant.encode
    let outcome := read ⟨offset, bytes ++ rest⟩
    let size := max count.toNat 1
    (∃ slots, (Reader.u16 >>= fun declared => readSlots [none] (declared.toNat - 1))
        ⟨offset, bytes ++ rest⟩ = .ok (slots, ⟨offset + bytes.length, rest⟩) ∧
          (ofSlots slots).Holds constants size) ∧
      ((∃ pool after, outcome = .ok (pool, after)) ↔
        ∀ number position index expected, ReferenceAt constants number position index expected →
          Met constants index expected) ∧
      (∀ pool after, outcome = .ok (pool, after) →
        after = ⟨offset + bytes.length, rest⟩ ∧ pool.Holds constants size) ∧
      ∀ error, outcome = .error error → FirstUnmet constants size error := by
  intro bytes outcome size
  have answered : outcome = (declaring count.toNat constants).checkReferences.map fun _ =>
      (declaring count.toNat constants, ⟨offset + bytes.length, rest⟩) :=
    read_declaring fits declares offset rest
  refine ⟨⟨_, takes_slots fits declares offset rest, holds_declaring declares⟩, ?_⟩
  rw [answered, ← checkReferences_declaring_ok declares]
  cases checked : (declaring count.toNat constants).checkReferences with
  | ok =>
    refine ⟨by simp [Except.map], ?_, nofun⟩
    rintro pool after ⟨⟩
    exact ⟨rfl, holds_declaring declares⟩
  | error reason =>
    refine ⟨by simp [Except.map], nofun, ?_⟩
    rintro error ⟨⟩
    exact firstUnmet_of_checkReferences declares checked

/-- References forwards and backwards, and a long whose second slot is not counted; of two bad
references the first is reported. -/
theorem read_declared_cut_short :
    let good : List Constant :=
      [.classRef 2, .utf8 [65], .nameAndType 2 2, .fieldRef 1 3, .methodHandle 1 4, .long 0 7]
    let bad : List Constant := [.double 0 0, .string 2, .classRef 3]
    ((∀ constant ∈ good, constant.Fits) ∧ Declares 7 good ∧
      read ⟨0, encode16 7 ++ good.flatMap Constant.encode ++ [0]⟩ =
        .ok (declaring 7 good, ⟨32, [0]⟩) ∧
      (declaring 7 good).Holds good 7) ∧
    (∀ constant ∈ bad, constant.Fits) ∧ Declares 5 bad ∧
      read ⟨0, encode16 5 ++ bad.flatMap Constant.encode ++ []⟩ = .error (.indexOutOfRange 2 5) ∧
      FirstUnmet bad 5 (.indexOutOfRange 2 5) := by
  intro good bad
  have goodFits : ∀ constant ∈ good, constant.Fits := by simp [good, Constant.Fits]
  have badFits : ∀ constant ∈ bad, constant.Fits := by simp [bad, Constant.Fits]
  have goodDeclared : Declares (UInt16.toNat 7) good := by
    have starts : ∀ entry ∈ numbered 1 good, entry.1 + 1 ≤ 7 := by decide
    exact ⟨fun number constant stands => starts _ stands, by decide⟩
  have badDeclared : Declares (UInt16.toNat 5) bad := by
    have starts : ∀ entry ∈ numbered 1 bad, entry.1 + 1 ≤ 5 := by decide
    exact ⟨fun number constant stands => starts _ stands, by decide⟩
  have accepted : read ⟨0, encode16 7 ++ good.flatMap Constant.encode ++ [0]⟩ =
      .ok (declaring 7 good, ⟨32, [0]⟩) := rfl
  have refused : read ⟨0, encode16 5 ++ bad.flatMap Constant.encode ++ []⟩ =
      .error (.indexOutOfRange 2 5) := rfl
  refine ⟨⟨goodFits, goodDeclared, accepted, ?_⟩, badFits, badDeclared, refused, ?_⟩
  · exact ((read_declared goodFits goodDeclared 0 [0]).2.2.1 _ _ accepted).2
  · exact (read_declared badFits badDeclared 0 []).2.2.2 _ refused

end ConstantPool

end PackageAudit.ClassFile
