import PackageAudit.Proofs.ClassFile.ReadBack
/-!
Reading back what nests.

Structures that enclose one another are read down to some number of levels. A reader takes what was written if
there is room for all of its levels, and otherwise it fails for the lack of room, wherever the bytes stand and
whatever follows. In a sequence there has to be room for all parts: the parts before the first that nests too
deep are taken, and nothing behind it is looked at.
-/

namespace PackageAudit.ClassFile

/-- Fails because something in these bytes nests too deep. -/
def Reader.StopsDeep {α : Type} (reader : Reader α) (bytes : List UInt8) : Prop :=
  ∀ offset rest, ∃ deep, reader ⟨offset, bytes ++ rest⟩ = .error (.nestingTooDeep deep)

/-- Takes exactly these bytes and answers the value if there is room, and else fails for the lack of it. -/
structure Reader.TakesWithin {α : Type} (reader : Reader α) (room : Prop) (bytes : List UInt8)
    (value : α) : Prop where
  takes : room → reader.Takes bytes value
  stops : ¬room → reader.StopsDeep bytes

/-- Takes each of these parts if there is room for all, and else those before the first that lacks it. -/
inductive Reader.TakesEach {α : Type} (reader : Reader α) :
    Prop → List (List UInt8) → List α → Prop where
  | nil : TakesEach reader True [] []
  | cons {room others : Prop} {part : List UInt8} {parts : List (List UInt8)} {value : α}
      {values : List α} (first : reader.TakesWithin room part value)
      (rest : TakesEach reader others parts values) :
    TakesEach reader (room ∧ others) (part :: parts) (value :: values)

namespace Reader

variable {α β : Type} {reader : Reader α} {next : α → Reader β} {room others : Prop}
  {bytes more : List UInt8} {value : α} {result : β}

namespace StopsDeep

protected theorem bind (stops : reader.StopsDeep bytes) (next : α → Reader β) (more : List UInt8) :
    (reader >>= next).StopsDeep (bytes ++ more) := by
  intro offset rest
  obtain ⟨deep, stopped⟩ := stops offset (more ++ rest)
  rw [← List.append_assoc] at stopped
  exact ⟨deep, by simp only [Bind.bind, StateT.bind, stopped, Except.bind]⟩

theorem behind (taken : reader.Takes bytes value) (stops : (next value).StopsDeep more) :
    (reader >>= next).StopsDeep (bytes ++ more) := by
  intro offset rest
  have read := taken offset (more ++ rest)
  rw [← List.append_assoc] at read
  obtain ⟨deep, stopped⟩ := stops (offset + bytes.length) rest
  exact ⟨deep, by simp only [Bind.bind, StateT.bind, read, Except.bind, stopped]⟩

theorem within (stops : reader.StopsDeep bytes) (others : List UInt8) :
    (Reader.within (bytes ++ others).length reader).StopsDeep (bytes ++ others) := by
  intro offset rest
  have split : splitExactly? (bytes ++ others).length (bytes ++ others ++ rest) =
      some (bytes ++ others, rest) :=
    (splitExactly?_eq_some_iff _ _ _ _).mpr ⟨rfl, rfl⟩
  obtain ⟨deep, stopped⟩ := stops offset others
  exact ⟨deep, by simp only [Reader.within, split, stopped]⟩

end StopsDeep

namespace TakesWithin

theorem of_takes (given : room) (taken : reader.Takes bytes value) :
    reader.TakesWithin room bytes value :=
  ⟨fun _ => taken, fun crowded => absurd given crowded⟩

theorem of_stops (crowded : ¬room) (stops : reader.StopsDeep bytes) (value : α) :
    reader.TakesWithin room bytes value :=
  ⟨fun given => absurd given crowded, fun _ => stops⟩

theorem congr (read : reader.TakesWithin room bytes value) (same : room ↔ others) :
    reader.TakesWithin others bytes value :=
  ⟨fun given => read.takes (same.mpr given), fun crowded => read.stops (mt same.mp crowded)⟩

/-- What is read first needs no room, or it is known that there is some. -/
theorem behind (taken : reader.Takes bytes value)
    (second : (next value).TakesWithin room more result) :
    (reader >>= next).TakesWithin room (bytes ++ more) result :=
  ⟨fun given => taken.bind (second.takes given), fun crowded => .behind taken (second.stops crowded)⟩

protected theorem bind (first : reader.TakesWithin room bytes value)
    (second : (next value).TakesWithin others more result) :
    (reader >>= next).TakesWithin (room ∧ others) (bytes ++ more) result := by
  by_cases given : room
  · exact (behind (first.takes given) second).congr (and_iff_right given).symm
  · exact of_stops (mt And.left given) ((first.stops given).bind next more) result

protected theorem map (read : reader.TakesWithin room bytes value) (change : α → β) :
    (reader >>= fun value => pure (change value)).TakesWithin room bytes (change value) where
  takes given := (read.takes given).map change
  stops crowded := by
    rw [← List.append_nil bytes]
    exact (read.stops crowded).bind _ []

protected theorem lift {computed : Except DecodeError α} (found : computed = .ok value)
    (second : (next value).TakesWithin room bytes result) :
    (liftM computed >>= next).TakesWithin room bytes result := by
  subst found
  exact second

theorem tagged {tag : UInt8} {next : Nat → UInt8 → Reader α}
    (behind : ∀ offset, (next offset tag).TakesWithin room bytes value) :
    (Reader.offset >>= fun offset => Reader.u8 >>= next offset).TakesWithin room (tag :: bytes)
      value where
  takes given := .tagged fun offset => (behind offset).takes given
  stops crowded offset rest :=
    StopsDeep.behind (Takes.u8 tag) ((behind offset).stops crowded) offset rest

theorem within (inner : reader.TakesWithin room bytes value) (others : List UInt8) :
    (Reader.within (bytes ++ others).length reader).TakesWithin room (bytes ++ others) value :=
  ⟨fun given => (inner.takes given).within others, fun crowded => (inner.stops crowded).within others⟩

end TakesWithin

namespace TakesEach

variable {parts : List (List UInt8)} {values : List α}

theorem congr (items : reader.TakesEach room parts values) (same : room ↔ others) :
    reader.TakesEach others parts values :=
  propext same ▸ items

theorem length_eq (items : reader.TakesEach room parts values) : parts.length = values.length := by
  induction items with
  | nil => rfl
  | cons _ _ ih => rw [List.length_cons, List.length_cons, ih]

theorem of_forall₂ {ι : Type} {described : List ι} {needed : ι → Prop} {meaning : ι → α}
    (found : List.Forall₂ (fun item part => reader.TakesWithin (needed item) part (meaning item))
      described parts) :
    reader.TakesEach (∀ item ∈ described, needed item) parts (described.map meaning) := by
  induction found with
  | nil => exact nil.congr (by simp)
  | cons first _ ih => exact (cons first ih).congr List.forall_mem_cons.symm

theorem concat {last : List UInt8} (items : reader.TakesEach room parts values)
    (another : reader.TakesWithin others last value) :
    reader.TakesEach (room ∧ others) (parts ++ [last]) (values ++ [value]) := by
  induction items with
  | nil => exact (cons another nil).congr and_comm
  | cons first _ ih => exact (cons first ih).congr and_assoc.symm

theorem concatOf {ι : Type} {described : List ι} {item : ι} {meaning : ι → α} {last : List UInt8}
    (items : reader.TakesEach room parts (described.map meaning))
    (another : reader.TakesWithin others last (meaning item)) :
    reader.TakesEach (room ∧ others) (parts ++ [last]) ((described ++ [item]).map meaning) := by
  rw [List.map_append]
  exact items.concat another

/-- By induction on the items, which stand behind those already read. -/
private theorem timesBehind (items : reader.TakesEach room parts values) (seen : List α) :
    (Reader.timesBehind reader seen parts.length).TakesWithin room parts.flatten
      (seen.reverse ++ values) := by
  induction items generalizing seen with
  | nil =>
    rw [List.append_nil]
    exact .of_takes trivial (.pure _)
  | @cons room others part parts value values first _ ih =>
    have rest := ih (value :: seen)
    rw [List.reverse_cons, List.append_assoc] at rest
    exact first.bind rest

theorem times (items : reader.TakesEach room parts values) :
    (Reader.times parts.length reader).TakesWithin room parts.flatten values :=
  timesBehind items []

theorem table (items : reader.TakesEach room parts values) (few : parts.length ≤ 65535) :
    (Reader.table reader).TakesWithin room (encodeTable parts) values := by
  refine .behind (.bytes16 parts.length) ?_
  have count : (UInt16.ofNat parts.length).toNat = parts.length := by
    rw [UInt16.toNat_ofNat']
    omega
  rw [count]
  exact times items

end TakesEach

/-- A table of items in which nothing nests, each of which means what its description means. -/
theorem Takes.tableOf {ι : Type} {described : List ι} {parts : List (List UInt8)} {meaning : ι → α}
    (found : List.Forall₂ (fun item part => reader.Takes part (meaning item)) described parts)
    (few : described.length ≤ 65535) :
    (Reader.table reader).Takes (encodeTable parts) (described.map meaning) := by
  have items := TakesEach.of_forall₂ (found.imp fun _ _ taken => TakesWithin.of_takes trivial taken)
  exact (items.table (found.length_eq ▸ few)).takes fun _ _ => trivial

end Reader

end PackageAudit.ClassFile
