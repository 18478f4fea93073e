import PackageAudit.ClassFile.Error
/-!
Reading big-endian data.

A reader takes bytes from the front of a cursor or fails with an error; a failed read of `n` bytes
names the offset, `n` and what was left. A structure of declared length is read within a cursor of
its own, so it can neither see past its end nor leave bytes behind for what follows.
-/

namespace PackageAudit.ClassFile

structure Cursor where
  /-- How far the unread bytes are from the start of the file. -/
  offset : Nat
  rest : List UInt8
  deriving DecidableEq, Repr

abbrev Reader := StateT Cursor (Except DecodeError)

def Cursor.truncated (cursor : Cursor) (needed : Nat) : DecodeError :=
  .truncated cursor.offset needed cursor.rest.length

/-- Splits off exactly `count` items, if there are so many. -/
def splitExactly? {α : Type} (count : Nat) (items : List α) : Option (List α × List α) :=
  let (taken, rest) := items.splitAt count
  if taken.length = count then some (taken, rest) else none

theorem splitExactly?_eq_some_iff {α : Type} (count : Nat) (items taken rest : List α) :
    splitExactly? count items = some (taken, rest) ↔
      items = taken ++ rest ∧ taken.length = count := by
  simp only [splitExactly?, List.splitAt_eq]
  constructor
  · intro found
    split at found
    next full =>
      cases found
      exact ⟨(List.take_append_drop count items).symm, full⟩
    next => cases found
  · rintro ⟨rfl, rfl⟩
    simp

namespace Reader

def offset : Reader Nat := fun cursor => .ok (cursor.offset, cursor)

def bytes (count : Nat) : Reader (List UInt8) := fun cursor =>
  match splitExactly? count cursor.rest with
  | some (taken, rest) => .ok (taken, ⟨cursor.offset + count, rest⟩)
  | none => .error (cursor.truncated count)

def skip (count : Nat) : Reader Unit := do
  let _ ← bytes count

def u8 : Reader UInt8 := fun cursor =>
  match cursor.rest with
  | a :: rest => .ok (a, ⟨cursor.offset + 1, rest⟩)
  | _ => .error (cursor.truncated 1)

def u16 : Reader UInt16 := fun cursor =>
  match cursor.rest with
  | a :: b :: rest => .ok (.ofNat (a.toNat * 256 + b.toNat), ⟨cursor.offset + 2, rest⟩)
  | _ => .error (cursor.truncated 2)

def u32 : Reader UInt32 := fun cursor =>
  match cursor.rest with
  | a :: b :: c :: d :: rest =>
    .ok (.ofNat (((a.toNat * 256 + b.toNat) * 256 + c.toNat) * 256 + d.toNat),
      ⟨cursor.offset + 4, rest⟩)
  | _ => .error (cursor.truncated 4)

/-- Reads a structure of declared length from the next `count` bytes alone, and continues behind
them however many it used. -/
def within {α : Type} (count : Nat) (body : Reader α) : Reader α := fun cursor =>
  match splitExactly? count cursor.rest with
  | some (taken, rest) =>
    match body ⟨cursor.offset, taken⟩ with
    | .ok (value, _) => .ok (value, ⟨cursor.offset + count, rest⟩)
    | .error error => .error error
  | none => .error (cursor.truncated count)

/-- Reads a number of items behind those already read, latest first. -/
def timesBehind {α : Type} (item : Reader α) (seen : List α) : Nat → Reader (List α)
  | 0 => return seen.reverse
  | count + 1 => do
    let value ← item
    timesBehind item (value :: seen) count

def times {α : Type} (count : Nat) (item : Reader α) : Reader (List α) :=
  timesBehind item [] count

def table {α : Type} (item : Reader α) : Reader (List α) := do
  let count ← u16
  times count.toNat item

end Reader

end PackageAudit.ClassFile
