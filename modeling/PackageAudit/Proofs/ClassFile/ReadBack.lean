import Mathlib.Data.List.Forall2
import PackageAudit.ClassFile.Encode
/-!
Reading back what was written.

A reader takes some bytes for a value if it answers the value behind them, wherever they stand and
whatever follows. What is taken in sequence is taken together, so a reader is matched with a writer
part by part.
-/

namespace PackageAudit.ClassFile

/-- Takes exactly these bytes and answers the value. -/
def Reader.Takes {α : Type} (reader : Reader α) (bytes : List UInt8) (value : α) : Prop :=
  ∀ offset rest, reader ⟨offset, bytes ++ rest⟩ = .ok (value, ⟨offset + bytes.length, rest⟩)

namespace Reader.Takes

variable {α β : Type} {reader : Reader α} {next : α → Reader β} {bytes others : List UInt8}
  {value : α} {result : β}

/-! ### Sequences -/

protected theorem pure (value : α) : Takes (pure value) [] value :=
  fun _ _ => rfl

protected theorem bind (first : reader.Takes bytes value) (second : (next value).Takes others result) :
    (reader >>= next).Takes (bytes ++ others) result := by
  intro offset rest
  -- To the first reader the bytes of the second are part of what follows.
  have read := first offset (others ++ rest)
  rw [← List.append_assoc] at read
  simp only [bind, StateT.bind, read, Except.bind]
  rw [second (offset + bytes.length) rest, List.length_append, Nat.add_assoc]

/-- The last step of a sequence answers something of what was read before. -/
protected theorem map (read : reader.Takes bytes value) (change : α → β) :
    (reader >>= fun value => pure (change value)).Takes bytes (change value) := by
  have both : (reader >>= fun value => pure (change value)).Takes (bytes ++ []) (change value) :=
    read.bind (Takes.pure (change value))
  rwa [List.append_nil] at both

/-- What is computed without reading takes no bytes. -/
protected theorem lift {computed : Except DecodeError α} (found : computed = .ok value)
    (second : (next value).Takes others result) : (liftM computed >>= next).Takes others result := by
  subst found
  exact second

protected theorem lifted {computed : Except DecodeError α} (found : computed = .ok value) :
    Takes (liftM computed) [] value := by
  subst found
  exact .pure value

/-- The last step of a sequence answers something of what was looked up by what was read. -/
protected theorem resolve {γ : Type} {lookup : α → Except DecodeError γ} {found : γ}
    (read : reader.Takes bytes value) (resolved : lookup value = .ok found) (change : γ → β) :
    (reader >>= fun value => liftM (lookup value) >>= fun found => pure (change found)).Takes bytes
      (change found) := by
  have both : (reader >>= fun value => liftM (lookup value) >>= fun found =>
      pure (change found)).Takes (bytes ++ []) (change found) :=
    read.bind (.lift resolved (.pure (change found)))
  rwa [List.append_nil] at both

/-! ### Numbers and bytes -/

theorem u8 (byte : UInt8) : Reader.u8.Takes [byte] byte :=
  fun _ _ => rfl

/-- The tag decides which reader is at hand behind it. -/
theorem tagged {tag : UInt8} {next : Nat → UInt8 → Reader α}
    (behind : ∀ offset, (next offset tag).Takes bytes value) :
    (Reader.offset >>= fun offset => Reader.u8 >>= next offset).Takes (tag :: bytes) value :=
  fun offset rest => ((u8 tag).bind (behind offset)) offset rest

theorem bytes16 (n : Nat) : Reader.u16.Takes (bytes16 n) (.ofNat n) := by
  intro offset rest
  -- Both sides are cut to the width of the field, so no bound on the number is needed.
  have same : UInt16.ofNat (n / 256 % 256 * 256 + n % 256) = .ofNat n := by
    apply UInt16.toNat.inj
    simp only [UInt16.toNat_ofNat']
    omega
  simp [ClassFile.bytes16, Reader.u16, same]

theorem bytes32 (n : Nat) : Reader.u32.Takes (bytes32 n) (.ofNat n) := by
  intro offset rest
  have same : UInt32.ofNat (((n / 16777216 % 256 * 256 + n / 65536 % 256) * 256 +
      n / 256 % 256) * 256 + n % 256) = .ofNat n := by
    apply UInt32.toNat.inj
    simp only [UInt32.toNat_ofNat']
    omega
  simp [ClassFile.bytes32, Reader.u32, same]

theorem encode16 (word : UInt16) : Reader.u16.Takes (encode16 word) word := by
  simpa [ClassFile.encode16] using bytes16 word.toNat

theorem encode32 (word : UInt32) : Reader.u32.Takes (encode32 word) word := by
  simpa [ClassFile.encode32] using bytes32 word.toNat

theorem ofBytes (bytes : List UInt8) : (Reader.bytes bytes.length).Takes bytes bytes := by
  intro offset rest
  have split : splitExactly? bytes.length (bytes ++ rest) = some (bytes, rest) :=
    (splitExactly?_eq_some_iff _ _ _ _).mpr ⟨rfl, rfl⟩
  simp [Reader.bytes, split]

/-! ### Structures -/

/-- Whatever stands behind the structure within its length is passed over. -/
theorem within (inner : reader.Takes bytes value) (others : List UInt8) :
    (Reader.within (bytes ++ others).length reader).Takes (bytes ++ others) value := by
  intro offset rest
  have split : splitExactly? (bytes ++ others).length (bytes ++ others ++ rest) =
      some (bytes ++ others, rest) :=
    (splitExactly?_eq_some_iff _ _ _ _).mpr ⟨rfl, rfl⟩
  simp only [Reader.within, split, inner offset others]

end Reader.Takes

end PackageAudit.ClassFile
