import Mathlib
import PackageAudit.Proofs.ClassFile.Composed
/-!
Reading with more bytes behind.

A read that succeeds does the same when more bytes follow, which it leaves behind. A read that fails
other than for want of bytes fails the same. Within a declared length nothing changes at all, since
the bytes that follow lie outside. So the one answer that more bytes can change is that a file is
truncated.
-/

namespace PackageAudit.ClassFile

/-- Fails for want of bytes. -/
def RanOut {α : Type} (result : Except DecodeError α) : Prop :=
  ∃ offset needed available, result = .error (.truncated offset needed available)

/-- The cursor with more bytes behind those not yet read. -/
def Cursor.extend (cursor : Cursor) (more : List UInt8) : Cursor :=
  { cursor with rest := cursor.rest ++ more }

private theorem splitExactly?_append {items taken rest : List UInt8} {count : Nat}
    (split : splitExactly? count items = some (taken, rest)) (more : List UInt8) :
    splitExactly? count (items ++ more) = some (taken, rest ++ more) := by
  rw [splitExactly?_eq_some_iff] at split ⊢
  rw [split.1, List.append_assoc]
  exact ⟨rfl, split.2⟩

/-- A reader answers as it does, or fails as it does, also with more bytes behind. -/
structure Reader.Unaffected {α : Type} (reader : Reader α) (cursor : Cursor) (more : List UInt8) :
    Prop where
  succeeds : ∀ value after, reader cursor = .ok (value, after) →
    reader (cursor.extend more) = .ok (value, after.extend more)
  fails : ∀ error, reader cursor = .error error →
    RanOut (reader cursor) ∨ reader (cursor.extend more) = .error error

namespace Reader

variable {α β : Type} (cursor : Cursor) (more : List UInt8)

private theorem bytes_unaffected (count : Nat) : (bytes count).Unaffected cursor more := by
  unfold bytes
  constructor
  · intro taken after read
    split at read
    next taken rest split =>
      cases read
      simp only [Cursor.extend, splitExactly?_append split more]
    next => cases read
  · intro error read
    split at read
    next => cases read
    next => exact .inl ⟨_, _, _, rfl⟩

private theorem u8_unaffected : u8.Unaffected cursor more := by
  obtain ⟨offset, rest⟩ := cursor
  cases rest with
  | nil => exact ⟨nofun, fun _ _ => .inl ⟨_, _, _, rfl⟩⟩
  | cons byte rest => exact ⟨by rintro _ _ ⟨⟩; rfl, nofun⟩

private theorem u16_unaffected : u16.Unaffected cursor more := by
  obtain ⟨offset, rest⟩ := cursor
  match rest with
  | [] | [_] => exact ⟨nofun, fun _ _ => .inl ⟨_, _, _, rfl⟩⟩
  | _ :: _ :: rest => exact ⟨by rintro _ _ ⟨⟩; rfl, nofun⟩

private theorem u32_unaffected : u32.Unaffected cursor more := by
  obtain ⟨offset, rest⟩ := cursor
  match rest with
  | [] | [_] | [_, _] | [_, _, _] => exact ⟨nofun, fun _ _ => .inl ⟨_, _, _, rfl⟩⟩
  | _ :: _ :: _ :: _ :: rest => exact ⟨by rintro _ _ ⟨⟩; rfl, nofun⟩

private theorem lift_unaffected (result : Except DecodeError α) :
    Unaffected (liftM result) cursor more := by
  cases result with
  | ok value => exact ⟨by rintro _ _ ⟨⟩; rfl, nofun⟩
  | error error => exact ⟨nofun, by rintro _ ⟨⟩; exact .inr rfl⟩

private theorem bind_unaffected {reader : Reader α} {next : α → Reader β} {cursor : Cursor}
    {more : List UInt8} (first : reader.Unaffected cursor more)
    (others : ∀ value after, (next value).Unaffected after more) :
    (reader >>= next).Unaffected cursor more := by
  cases read : reader cursor with
  | ok result =>
    obtain ⟨value, after⟩ := result
    have before : (reader >>= next) cursor = next value after := by
      simp [bind, StateT.bind, read, Except.bind]
    have behind : (reader >>= next) (cursor.extend more) = next value (after.extend more) := by
      simp [bind, StateT.bind, first.succeeds value after read, Except.bind]
    -- Both runs leave the first part at the same place, from where the second part decides.
    constructor
    · intro result last final
      rw [before] at final
      rw [behind]
      exact (others value after).succeeds result last final
    · intro error final
      rw [before] at final ⊢
      rw [behind]
      exact (others value after).fails error final
  | error failure =>
    have before : (reader >>= next) cursor = .error failure := by
      simp [bind, StateT.bind, read, Except.bind]
    constructor
    · intro _ _ final
      rw [before] at final
      cases final
    · intro error final
      rw [before] at final ⊢
      cases final
      -- Having run out of bytes settles the sequence; any other failure is met again.
      rcases first.fails failure read with ⟨offset, needed, available, ran⟩ | same
      · rw [read] at ran
        cases ran
        exact .inl ⟨_, _, _, rfl⟩
      · right
        simp [bind, StateT.bind, same, Except.bind]

/-- The body sees the same bytes, so that any error of its own stands, for want of bytes too. -/
private theorem within_unaffected (body : Reader α) (count : Nat) :
    (within count body).Unaffected cursor more := by
  unfold within
  cases split : splitExactly? count cursor.rest with
  | none => exact ⟨by simp [split], fun _ _ => .inl ⟨_, _, _, by simp [split]; rfl⟩⟩
  | some parts =>
    obtain ⟨taken, rest⟩ := parts
    cases read : body ⟨cursor.offset, taken⟩ with
    | ok result =>
      constructor
      · simp [split, read, Cursor.extend, splitExactly?_append split more]
      · simp [split, read]
    | error failure =>
      constructor
      · simp [split, read]
      · simp [split, read, Cursor.extend, splitExactly?_append split more]

theorem Composed.unaffected {reader : Reader α} (composed : reader.Composed) (cursor : Cursor)
    (more : List UInt8) : reader.Unaffected cursor more := by
  induction composed generalizing cursor with
  | pure value => exact lift_unaffected cursor more (.ok value)
  | lift result => exact lift_unaffected cursor more result
  | offset => exact ⟨by rintro _ _ ⟨⟩; rfl, nofun⟩
  | bytes count => exact bytes_unaffected cursor more count
  | u8 => exact u8_unaffected cursor more
  | u16 => exact u16_unaffected cursor more
  | u32 => exact u32_unaffected cursor more
  | bind _ _ first others => exact bind_unaffected (first cursor) fun value after => others value after
  | within count _ _ => exact within_unaffected cursor more _ count

end Reader

/-- Bytes behind a file change nothing unless the file is truncated, so a file cut short at any
place decodes to the same record as the whole or is truncated. -/
theorem decode_append (bytes : List UInt8) :
    (¬ RanOut (decode bytes) → ∀ more, decode (bytes ++ more) = decode bytes) ∧
    (∀ record, decode bytes = .ok record → ∀ start, start <+: bytes →
      decode start = .ok record ∨ RanOut (decode start)) := by
  have stands (bytes more : List UInt8) (complete : ¬ RanOut (decode bytes)) :
      decode (bytes ++ more) = decode bytes := by
    have unaffected := readClass_composed.unaffected ⟨0, bytes⟩ more
    change (readClass (Cursor.extend ⟨0, bytes⟩ more)).map (·.1) = (readClass ⟨0, bytes⟩).map (·.1)
    cases read : readClass ⟨0, bytes⟩ with
    | ok result => rw [unaffected.succeeds result.1 result.2 read]; rfl
    | error error =>
      rcases unaffected.fails error read with ⟨offset, needed, available, ran⟩ | same
      · exact absurd ⟨offset, needed, available, by rw [decode, ran]; rfl⟩ complete
      · rw [same]
  constructor
  · intro complete more
    exact stands bytes more complete
  · rintro record decoded start ⟨more, rfl⟩
    -- The whole goes on behind its start, so unless the start is truncated they decode alike.
    by_cases ran : RanOut (decode start)
    · exact .inr ran
    · exact .inl (by rw [← stands start more ran, decoded])

set_option maxRecDepth 4000 in
/-- A pool whose first constant has no known tag, and a class of its own package alone. -/
theorem decode_append_unknown_tag :
    let foreign : List UInt8 := [0xCA, 0xFE, 0xBA, 0xBE, 0, 0, 0, 52, 0, 3, 99]
    let small : List UInt8 := [0xCA, 0xFE, 0xBA, 0xBE, 0, 0, 0, 52, 0, 3, 1, 0, 3, 97, 47, 66, 7, 0, 1,
      0, 1, 0, 2, 0, 0, 0, 0, 0, 0, 0, 0, 0, 0]
    ¬ RanOut (decode foreign) ∧ (∀ more, decode (foreign ++ more) = .error (.unknownTag 99 10)) ∧
    decode small = .ok (.ofReferences "a.B" none false ["a"]) ∧
    ∀ start, start <+: small →
      decode start = .ok (.ofReferences "a.B" none false ["a"]) ∨ RanOut (decode start) := by
  intro foreign small
  have unknown : decode foreign = .error (.unknownTag 99 10) := by cbv
  have decoded : decode small = .ok (.ofReferences "a.B" none false ["a"]) := by cbv
  have complete : ¬ RanOut (decode foreign) := by
    rintro ⟨offset, needed, available, ran⟩
    rw [unknown] at ran
    cases ran
  refine ⟨complete, fun more => ?_, decoded, (decode_append small).2 _ decoded⟩
  rw [(decode_append foreign).1 complete more, unknown]

end PackageAudit.ClassFile
