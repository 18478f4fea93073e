import PackageAudit.Proofs.ClassFile.PoolReading
import PackageAudit.Proofs.ClassFile.Recognition
/-!
The readers of constants recognise them.

A constant is accepted by its tag with what belongs to the tag behind it, and a pool by constants
that fill the slots that are declared and refer to one another as they must.
-/

namespace PackageAudit.ClassFile

open Reader

namespace Constant

private theorem pair_recognizes (make : UInt16 → UInt16 → Constant) :
    (read.pair make).Recognizes (described
      (fun words : UInt16 × UInt16 => encode16 words.1 ++ encode16 words.2)
      fun words => make words.1 words.2) := by
  refine (Recognizes.u16.bind fun first => Recognizes.u16.bind fun second =>
    .pure (make first second)).congr fun bytes constant => ?_
  constructor
  · rintro ⟨_, _, first, rfl, rfl, _, _, second, rfl, rfl, rfl, rfl⟩
    exact ⟨(first, second), by rw [List.append_nil], rfl⟩
  · rintro ⟨⟨first, second⟩, rfl, rfl⟩
    exact ⟨_, _, first, rfl, rfl, _, _, second, (List.append_nil _).symm, rfl, rfl, rfl⟩

private theorem wide_recognizes (make : UInt32 → UInt32 → Constant) :
    (read.wide make).Recognizes (described
      (fun words : UInt32 × UInt32 => encode32 words.1 ++ encode32 words.2)
      fun words => make words.1 words.2) := by
  refine (Recognizes.within 8 (Recognizes.u32.bind fun high => Recognizes.u32.bind fun low =>
    .pure (make high low))).congr fun bytes constant => ?_
  constructor
  · rintro ⟨full, _, unread, rfl, _, _, high, rfl, rfl, _, _, low, rfl, rfl, rfl, rfl⟩
    -- Eight bytes are used, so none is left.
    obtain rfl : unread = [] := by simpa [encode32, bytes32] using full
    exact ⟨(high, low), by simp, rfl⟩
  · rintro ⟨⟨high, low⟩, rfl, rfl⟩
    exact ⟨rfl, _, [], (List.append_nil _).symm, _, _, high, rfl, rfl, _, _, low,
      (List.append_nil _).symm, rfl, rfl, rfl⟩

/-- Behind its tag a constant is read by what the tag stands for. -/
theorem recognizes_read : read.Recognizes fun bytes constant =>
    constant.Fits ∧ bytes = constant.encode where
  takes := by
    rintro bytes constant ⟨fits, rfl⟩
    exact constant.takes_read fits
  only := by
    refine .tagged fun place tag => ?_
    split
    case h_1 same =>
      refine (Recognizes.u16.bind fun length => (Recognizes.bytes length.toNat).bind fun text =>
        .pure (utf8 text)).only.mono ?_
      rintro _ _ ⟨_, _, length, rfl, rfl, _, _, text, rfl, ⟨rfl, full⟩, rfl, rfl⟩
      have bound := length.toNat_lt
      refine ⟨Nat.le_of_lt_succ (full ▸ bound), ?_⟩
      rw [encode, full, List.append_nil]
      exact congrArg (· :: _) (UInt8.toNat.inj same)
    case h_2 same | h_3 same =>
      refine (Recognizes.u32.map _).only.mono ?_
      rintro _ _ ⟨bits, rfl, rfl⟩
      exact ⟨trivial, congrArg (· :: _) (UInt8.toNat.inj same)⟩
    case h_4 same | h_5 same =>
      refine (wide_recognizes _).only.mono ?_
      rintro _ _ ⟨words, rfl, rfl⟩
      exact ⟨trivial, congrArg (· :: _) (UInt8.toNat.inj same)⟩
    case h_6 same | h_7 same | h_13 same | h_16 same | h_17 same =>
      refine (Recognizes.u16.map _).only.mono ?_
      rintro _ _ ⟨word, rfl, rfl⟩
      exact ⟨trivial, congrArg (· :: _) (UInt8.toNat.inj same)⟩
    case h_8 same | h_9 same | h_10 same | h_11 same | h_14 same | h_15 same =>
      refine (pair_recognizes _).only.mono ?_
      rintro _ _ ⟨words, rfl, rfl⟩
      exact ⟨trivial, congrArg (· :: _) (UInt8.toNat.inj same)⟩
    case h_12 same =>
      refine (Recognizes.u8.bind fun kind => Recognizes.u16.map (methodHandle kind)).only.mono ?_
      rintro _ _ ⟨_, _, kind, rfl, rfl, reference, rfl, rfl⟩
      exact ⟨trivial, congrArg (· :: _) (UInt8.toNat.inj same)⟩
    case h_18 => exact (Recognizes.throw _).only.mono fun _ _ => False.elim

end Constant

namespace ConstantPool

/-- By induction on the slots that are left, of which a wide constant fills two at once. -/
theorem recognizes_readSlots (filled : List (Option Constant)) (count : Nat) :
    (readSlots filled count).Recognizes fun bytes slots =>
      ∃ constants, (∀ constant ∈ constants, constant.Fits) ∧ Fills count constants ∧
        bytes = constants.flatMap Constant.encode ∧
        slots = filled.reverse ++ (constants.flatMap Constant.slots).take count where
  takes := by
    rintro _ _ ⟨constants, fits, fills, rfl, rfl⟩
    exact takes_readSlots fills filled fits
  only := by
    induction count using Nat.strongRecOn generalizing filled with
    | ind count ih =>
      cases count with
      | zero =>
        refine (Recognizes.pure _).only.mono ?_
        rintro _ _ ⟨rfl, rfl⟩
        exact ⟨[], nofun, .none, rfl, (List.append_nil _).symm⟩
      | succ count =>
        rw [readSlots]
        intro cursor slots after read
        obtain ⟨constant, middle, first, read⟩ := exists_of_bind read
        obtain ⟨_, ⟨fits, rfl⟩, split⟩ := Constant.recognizes_read.only first
        by_cases wide : constant.isWide
        · rw [if_pos wide] at read
          have two : constant.slotCount = 2 := by simp [Constant.slotCount, wide]
          cases count with
          | zero =>
            cases read
            refine ⟨_, ⟨[constant], by simpa using fits, .last wide, rfl, ?_⟩, ?_⟩
            · simp [Constant.slots, wide]
            · simpa using split
          | succ count =>
            obtain ⟨_, ⟨others, othersFit, fills, rfl, rfl⟩, rest⟩ := ih count (by omega) _ read
            have all := fills.next constant
            rw [two] at all
            refine ⟨_, ⟨constant :: others, List.forall_mem_cons.mpr ⟨fits, othersFit⟩, all, rfl,
              ?_⟩, ?_⟩
            · simp [Constant.slots, wide]
            · rw [split, rest, List.flatMap_cons, List.append_assoc]
        · rw [if_neg wide] at read
          have one : constant.slotCount = 1 := by simp [Constant.slotCount, wide]
          obtain ⟨_, ⟨others, othersFit, fills, rfl, rfl⟩, rest⟩ := ih count (by omega) _ read
          have all := fills.next constant
          rw [one] at all
          refine ⟨_, ⟨constant :: others, List.forall_mem_cons.mpr ⟨fits, othersFit⟩, all, rfl, ?_⟩,
            ?_⟩
          · simp [Constant.slots, wide]
          · rw [split, rest, List.flatMap_cons, List.append_assoc]

/-- Constants that fit and refer to one another as they must, behind a count that declares them. -/
theorem recognizes_read : read.Recognizes fun bytes pool =>
    ∃ (count : UInt16) (constants : List Constant), (∀ constant ∈ constants, constant.Fits) ∧
      Declares count.toNat constants ∧
      (∀ number position index expected, ReferenceAt constants number position index expected →
        Met constants index expected) ∧
      bytes = encode16 count ++ constants.flatMap Constant.encode ∧
      pool = declaring count.toNat constants where
  takes := by
    rintro _ _ ⟨count, constants, fits, declares, met, rfl, rfl⟩ offset rest
    rw [read_declaring fits declares, (checkReferences_declaring_ok declares).mpr met]
    rfl
  only := by
    refine (Recognizes.u16.bind fun count => (recognizes_readSlots [none] _).bind fun slots =>
      (Recognizes.lift (ofSlots slots).checkReferences).map fun _ => ofSlots slots).only.mono ?_
    rintro _ _ ⟨_, _, count, rfl, rfl, _, _, slots, rfl, ⟨constants, fits, fills, rfl, rfl⟩,
      _, ⟨rfl, checked⟩, rfl⟩
    exact ⟨count, constants, fits, fills.declares,
      (checkReferences_declaring_ok fills.declares).mp checked, by rw [List.append_nil], rfl⟩

end ConstantPool

end PackageAudit.ClassFile
