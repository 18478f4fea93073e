import PackageAudit.Proofs.ClassFile.Recognition
/-!
Bytes that a reader overlooks.

Two byte strings of one length may differ at some places and be read alike, and which places these
are is itself told by bytes of the string. So places are laid out in the order in which a string is
read: a number that decides what stands behind it, a structure of declared length, a counted table.
A reader overlooks such a layout if two strings that differ only there lead it to the same answer or
the same error, at the same offset, and what it leaves unread differs only where the rest of the
layout allows.
-/

namespace PackageAudit.ClassFile

/-- Places in a byte string, counted from its beginning. -/
abbrev Places := List UInt8 → Nat → Prop

namespace Places

def nowhere : Places := fun _ _ => False

def everywhere : Places := fun _ _ => True

/-- Places behind a string of a language, which depend on what that string means. -/
def behind {α : Type} (language : Language α) (next : α → Places) : Places := fun bytes place =>
  ∃ front value rest later, bytes = front ++ rest ∧ language front value ∧ next value rest later ∧
    place = front.length + later

def word16 (next : UInt16 → Places) : Places :=
  behind (fun bytes word => bytes = encode16 word) next

def word32 (next : UInt32 → Places) : Places :=
  behind (fun bytes word => bytes = encode32 word) next

/-- Places behind a number of words of sixteen bits, whatever these are. -/
def words : Nat → Places → Places
  | 0, next => next
  | count + 1, next => word16 fun _ => words count next

/-- Places in a structure that takes the next `count` bytes, and places behind it. -/
def within (count : Nat) (inner next : Places) : Places := fun bytes place =>
  (place < count ∧ inner (bytes.take count) place) ∨
    (count ≤ place ∧ next (bytes.drop count) (place - count))

/-- Places in a number of items, each laid out by where the next one begins. -/
def times (item : Places → Places) : Nat → Places → Places
  | 0, next => next
  | count + 1, next => item (times item count next)

def table (item : Places → Places) (next : Places) : Places :=
  word16 fun count => times item count.toNat next

/-! ### Places in given bytes -/

variable {a b c d : UInt8} {rest : List UInt8} {place : Nat}

theorem word16_cons {next : UInt16 → Places}
    (later : next (.ofNat (a.toNat * 256 + b.toNat)) rest place) :
    word16 next (a :: b :: rest) (place + 2) :=
  ⟨[a, b], _, rest, place, rfl, (Reader.Recognizes.encode16_of_bytes a b).symm, later,
    Nat.add_comm place 2⟩

theorem words_cons {count : Nat} {next : Places} (later : words count next rest place) :
    words (count + 1) next (a :: b :: rest) (place + 2) :=
  word16_cons later

theorem word32_cons {next : UInt32 → Places}
    (later : next (.ofNat (((a.toNat * 256 + b.toNat) * 256 + c.toNat) * 256 + d.toNat)) rest
      place) :
    word32 next (a :: b :: c :: d :: rest) (place + 4) :=
  ⟨[a, b, c, d], _, rest, place, rfl, (Reader.Recognizes.encode32_of_bytes a b c d).symm, later,
    Nat.add_comm place 4⟩

end Places

/-- Equally long, and different at some places alone. -/
structure DifferOnly (places : Places) (bytes other : List UInt8) : Prop where
  length_eq : other.length = bytes.length
  only : ∀ place, bytes[place]? ≠ other[place]? → places bytes place

namespace DifferOnly

variable {places inner next : Places} {bytes other : List UInt8} {count : Nat}

theorem refl (places : Places) (bytes : List UInt8) : DifferOnly places bytes bytes :=
  ⟨rfl, fun _ other => absurd rfl other⟩

theorem mono {more : Places} (differ : DifferOnly places bytes other)
    (weaker : ∀ place, places bytes place → more bytes place) : DifferOnly more bytes other :=
  ⟨differ.length_eq, fun place unlike => weaker place (differ.only place unlike)⟩

/-- Without a place to differ at there is no difference. -/
theorem eq_of_nowhere (differ : DifferOnly places bytes other)
    (nowhere : ∀ place, ¬ places bytes place) : other = bytes := by
  refine List.ext_getElem? fun place => ?_
  by_contra unlike
  exact nowhere place (differ.only place (Ne.symm unlike))

theorem take (differ : DifferOnly (.within count inner next) bytes other) :
    DifferOnly inner (bytes.take count) (other.take count) where
  length_eq := by rw [List.length_take, List.length_take, differ.length_eq]
  only place unlike := by
    simp only [List.getElem?_take] at unlike
    split at unlike
    next early =>
      rcases differ.only place unlike with ⟨_, inside⟩ | ⟨late, _⟩
      · exact inside
      · omega
    next => exact absurd rfl unlike

theorem drop (differ : DifferOnly (.within count inner next) bytes other) :
    DifferOnly next (bytes.drop count) (other.drop count) where
  length_eq := by rw [List.length_drop, List.length_drop, differ.length_eq]
  only place unlike := by
    simp only [List.getElem?_drop] at unlike
    rcases differ.only (count + place) unlike with ⟨early, _⟩ | ⟨_, later⟩
    · omega
    · rwa [Nat.add_sub_cancel_left] at later

end DifferOnly

/-- One error, or one answer at one offset with a rest that differs only where it may. -/
inductive SameOutcome {α : Type} (next : α → Places) :
    Except DecodeError (α × Cursor) → Except DecodeError (α × Cursor) → Prop
  | fails (error : DecodeError) : SameOutcome next (.error error) (.error error)
  | answers {value : α} {offset : Nat} {rest other : List UInt8}
    (differ : DifferOnly (next value) rest other) :
    SameOutcome next (.ok (value, ⟨offset, rest⟩)) (.ok (value, ⟨offset, other⟩))

namespace Reader

variable {α β : Type}

/-- Cannot tell apart strings that differ only at some places, and leaves rests that differ only at
places that depend on the answer. -/
def Overlooks (reader : Reader α) (places : Places) (next : α → Places) : Prop :=
  ∀ offset bytes other, DifferOnly places bytes other →
    SameOutcome next (reader ⟨offset, bytes⟩) (reader ⟨offset, other⟩)

namespace Overlooks

variable {reader : Reader α} {places other : Places} {next : α → Places}

theorem mono (overlooks : reader.Overlooks other next)
    (weaker : ∀ bytes place, places bytes place → other bytes place) :
    reader.Overlooks places next :=
  fun offset _ _ differ => overlooks offset _ _ (differ.mono (weaker _))

/-- A reader whose rest is not read any further. -/
theorem last (overlooks : reader.Overlooks places next) :
    reader.Overlooks places fun _ => .everywhere := by
  intro offset bytes other differ
  have same := overlooks offset bytes other differ
  generalize reader ⟨offset, bytes⟩ = outcome, reader ⟨offset, other⟩ = another at same ⊢
  cases same with
  | fails error => exact .fails error
  | answers rest => exact .answers (rest.mono fun _ _ => trivial)

/-- Equal strings are read alike. -/
theorem nowhere (reader : Reader α) (next : α → Places) : reader.Overlooks .nowhere next := by
  intro offset bytes other differ
  obtain rfl := differ.eq_of_nowhere fun _ => id
  cases reader ⟨offset, other⟩ with
  | error error => exact .fails error
  | ok result => exact .answers (.refl _ _)

/-! ### Sequences -/

theorem lift (computed : Except DecodeError α) (places : Places) :
    Overlooks (liftM computed) places fun _ => places := by
  intro offset bytes other differ
  cases computed with
  | error error => exact .fails error
  | ok value => exact .answers differ

theorem answer (value : α) (next : α → Places) : Overlooks (Pure.pure value) (next value) next :=
  fun _ _ _ differ => .answers differ

theorem pure (value : α) (places : Places) : Overlooks (pure value) places fun _ => places :=
  answer value fun _ => places

theorem bind {following : α → Reader β} {last : β → Places} (first : reader.Overlooks places next)
    (second : ∀ value, (following value).Overlooks (next value) last) :
    (reader >>= following).Overlooks places last := by
  intro offset bytes other differ
  have begun := first offset bytes other differ
  simp only [Bind.bind, StateT.bind]
  generalize reader ⟨offset, bytes⟩ = outcome, reader ⟨offset, other⟩ = another at begun ⊢
  cases begun with
  | fails error => exact .fails error
  | answers rest =>
    -- The second part starts at one offset, from rests that differ where its layout allows.
    exact second _ _ _ _ rest

/-- What follows a computation need only be known for what is computed. -/
theorem bind_lift {computed : Except DecodeError α} {following : α → Reader β} {last : β → Places}
    (second : ∀ value, computed = .ok value → (following value).Overlooks places last) :
    (liftM computed >>= following).Overlooks places last := by
  cases computed with
  | error error => exact fun _ _ _ _ => .fails error
  | ok value => exact second value rfl

/-! ### What is not overlooked -/

/-- What is recognised decides where strings may differ behind it, so it is the same in both. -/
theorem behind {language : Language α} (recognizes : reader.Recognizes language) :
    reader.Overlooks (.behind language next) next := by
  intro offset bytes other differ
  cases read : reader ⟨offset, bytes⟩ with
  | error error =>
    -- No string of the language stands in front, so there is no place behind one.
    obtain rfl := differ.eq_of_nowhere fun place => by
      rintro ⟨front, value, rest, _, rfl, inLanguage, _⟩
      rw [recognizes.takes inLanguage] at read
      cases read
    rw [read]
    exact .fails error
  | ok result =>
    obtain ⟨value, last, rest⟩ := result
    obtain ⟨front, inLanguage, split, place⟩ := recognizes.advances read
    obtain rfl : bytes = front ++ rest := split
    obtain rfl : last = offset + front.length := place
    have behind : DifferOnly (.within front.length .nowhere (next value)) (front ++ rest)
        other := by
      refine differ.mono fun place => ?_
      rintro ⟨front', value', rest', later, split, inLanguage', differs, rfl⟩
      -- Read in two ways, the string has one front and one meaning.
      rw [split, recognizes.takes inLanguage', Except.ok.injEq, Prod.mk.injEq,
        Cursor.mk.injEq] at read
      obtain ⟨rfl, sameEnd, rfl⟩ := read
      have same : front'.length = front.length := by omega
      refine .inr ⟨by omega, ?_⟩
      rw [List.drop_left, same, Nat.add_sub_cancel_left]
      exact differs
    have kept := behind.take.eq_of_nowhere fun _ => id
    have rests := behind.drop
    rw [List.take_left] at kept
    rw [List.drop_left] at rests
    rw [← List.take_append_drop front.length other, kept, recognizes.takes inLanguage]
    exact .answers rests

theorem u16 {next : UInt16 → Places} : Reader.u16.Overlooks (.word16 next) next :=
  behind .u16

/-- A word that decides nothing about what stands behind it. -/
theorem word {count : Nat} {behind : Places} :
    Reader.u16.Overlooks (.words (count + 1) behind) fun _ => .words count behind :=
  u16

theorem u32 {next : UInt32 → Places} : Reader.u32.Overlooks (.word32 next) next :=
  behind .u32

/-! ### Structures -/

/-- The structure is framed by its length alone, whatever reading it comes to. -/
theorem within {inner behind : Places} (count : Nat) {last : α → Places}
    (overlooks : reader.Overlooks inner last) :
    (Reader.within count reader).Overlooks (.within count inner behind) fun _ => behind := by
  intro offset bytes other differ
  simp only [Reader.within, splitExactly?_eq_ite, Cursor.truncated, differ.length_eq]
  by_cases enough : count ≤ bytes.length
  · have inside := overlooks offset _ _ differ.take
    simp only [if_pos enough]
    generalize reader ⟨offset, bytes.take count⟩ = outcome,
      reader ⟨offset, other.take count⟩ = another at inside ⊢
    cases inside with
    | fails error => exact .fails error
    | answers _ => exact .answers differ.drop
  · simp only [if_neg enough]
    exact .fails _

/-- Bytes that are skipped may be any. -/
theorem skip (count : Nat) (behind : Places) :
    (Reader.skip count).Overlooks (.within count .everywhere behind) fun _ => behind := by
  intro offset bytes other differ
  simp only [Reader.skip, Bind.bind, StateT.bind, Reader.bytes, splitExactly?_eq_ite,
    Cursor.truncated, differ.length_eq]
  by_cases enough : count ≤ bytes.length
  · simp only [if_pos enough]
    exact .answers differ.drop
  · simp only [if_neg enough]
    exact .fails _

variable {item : Places → Places}

/-- By induction on the number of items, each of which ends where the next one begins. -/
private theorem timesBehind (each : ∀ behind, reader.Overlooks (item behind) fun _ => behind)
    (seen : List α) (count : Nat) (behind : Places) :
    (Reader.timesBehind reader seen count).Overlooks (.times item count behind)
      fun _ => behind := by
  induction count generalizing seen with
  | zero => exact .pure _ behind
  | succ count ih => exact (each _).bind fun value => ih (value :: seen)

theorem table (each : ∀ behind, reader.Overlooks (item behind) fun _ => behind) (behind : Places) :
    (Reader.table reader).Overlooks (.table item behind) fun _ => behind :=
  u16.bind fun count => timesBehind each [] count.toNat behind

end Overlooks

end Reader

end PackageAudit.ClassFile
