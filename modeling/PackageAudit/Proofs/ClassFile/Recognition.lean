import PackageAudit.Proofs.ClassFile.ReadBack
/-!
What a reader accepts.

A reader recognises a language when it takes every byte string of the language for what the string
means, and accepts nothing else. Recognition is kept by sequencing, by counted tables and by reading
within a length, so a reader is matched with the syntax of what it reads part by part, in both
directions at once.
-/

namespace PackageAudit.ClassFile

/-- Byte strings with what they mean. -/
abbrev Language (α : Type) := List UInt8 → α → Prop

/-- The encodings of some trees with what the trees mean. -/
def described {τ α : Type} (encode : τ → List UInt8) (meaning : τ → α) : Language α :=
  fun bytes value => ∃ tree, bytes = encode tree ∧ value = meaning tree

/-- A string of one language, and behind it one of a language that depends on what that means. -/
def Language.followed {α β : Type} (first : Language α) (next : α → Language β) : Language β :=
  fun bytes result => ∃ front behind value,
    bytes = front ++ behind ∧ first front value ∧ next value behind result

/-- Trees in a table that is counted by sixteen bits. -/
structure Table (τ : Type) where
  items : List τ
  few : items.length ≤ 65535

def Table.encode {τ : Type} (item : τ → List UInt8) (table : Table τ) : List UInt8 :=
  encodeTable (table.items.map item)

theorem splitExactly?_eq_ite {α : Type} (count : Nat) (items : List α) :
    splitExactly? count items =
      if count ≤ items.length then some (items.take count, items.drop count) else none := by
  have enough : min count items.length = count ↔ count ≤ items.length := by omega
  simp only [splitExactly?, List.splitAt_eq, List.length_take, enough]

namespace Reader

variable {α β τ : Type}

/-- A sequence that is accepted has both its parts accepted. -/
theorem exists_of_bind {reader : Reader α} {next : α → Reader β} {cursor after : Cursor}
    {result : β} (read : (reader >>= next) cursor = .ok (result, after)) :
    ∃ value middle, reader cursor = .ok (value, middle) ∧
      next value middle = .ok (result, after) := by
  cases begun : reader cursor with
  | error error => simp only [bind, StateT.bind, begun, Except.bind, reduceCtorEq] at read
  | ok found =>
    simp only [bind, StateT.bind, begun, Except.bind] at read
    exact ⟨found.1, found.2, rfl, read⟩

/-- Accepts nothing but the byte strings of a language for what they mean. -/
def Yields (reader : Reader α) (language : Language α) : Prop :=
  ∀ ⦃cursor value after⦄, reader cursor = .ok (value, after) →
    ∃ bytes, language bytes value ∧ cursor.rest = bytes ++ after.rest

/-- Accepts the byte strings of a language for what they mean, and nothing else. -/
structure Recognizes (reader : Reader α) (language : Language α) : Prop where
  takes : ∀ {bytes value}, language bytes value → reader.Takes bytes value
  only : reader.Yields language

theorem Yields.mono {reader : Reader α} {language other : Language α}
    (yields : reader.Yields language)
    (weaker : ∀ bytes value, language bytes value → other bytes value) : reader.Yields other := by
  intro cursor value after read
  obtain ⟨bytes, inLanguage, split⟩ := yields read
  exact ⟨bytes, weaker _ _ inLanguage, split⟩

/-- Where the cursor stands matters for errors only, and the tag decides what is read behind it. -/
theorem Yields.tagged {next : Nat → UInt8 → Reader α} {language : Language α}
    (behind : ∀ place tag, (next place tag).Yields fun bytes value => language (tag :: bytes) value) :
    (Reader.offset >>= fun place => Reader.u8 >>= next place).Yields language := by
  intro cursor value after read
  obtain ⟨place, rest⟩ := cursor
  cases rest with
  | nil => cases read
  | cons tag rest =>
    have read : next place tag ⟨place + 1, rest⟩ = .ok (value, after) := read
    obtain ⟨bytes, inLanguage, split⟩ := behind place tag read
    exact ⟨tag :: bytes, inLanguage, congrArg (tag :: ·) split⟩

namespace Recognizes

variable {reader : Reader α} {next : α → Reader β} {language other : Language α}

theorem congr (recognizes : reader.Recognizes language)
    (same : ∀ bytes value, language bytes value ↔ other bytes value) : reader.Recognizes other where
  takes inOther := recognizes.takes ((same _ _).mpr inOther)
  only := recognizes.only.mono fun bytes value => (same bytes value).mp

/-- The cursor moves over exactly the bytes that are accepted. -/
theorem advances (recognizes : reader.Recognizes language) {cursor after : Cursor} {value : α}
    (read : reader cursor = .ok (value, after)) :
    ∃ bytes, language bytes value ∧ cursor.rest = bytes ++ after.rest ∧
      after.offset = cursor.offset + bytes.length := by
  obtain ⟨bytes, inLanguage, split⟩ := recognizes.only read
  have taken := recognizes.takes inLanguage cursor.offset after.rest
  rw [← split, read] at taken
  exact ⟨bytes, inLanguage, split, congrArg (·.2.offset) (Except.ok.inj taken)⟩

/-! ### Sequences -/

/-- What is computed without reading takes no bytes. -/
theorem lift (computed : Except DecodeError α) :
    Recognizes (liftM computed) fun bytes value => bytes = [] ∧ computed = .ok value where
  takes := by
    rintro bytes value ⟨rfl, found⟩
    exact .lifted found
  only cursor value after read := by
    cases computed with
    | ok found =>
      cases read
      exact ⟨[], ⟨rfl, rfl⟩, rfl⟩
    | error error => cases read

theorem pure (value : α) : Recognizes (pure value) fun bytes result => bytes = [] ∧ result = value :=
  (lift (.ok value)).congr fun bytes result => by rw [Except.ok.injEq, eq_comm (a := value)]

theorem throw (error : DecodeError) : Recognizes (throw error : Reader α) fun _ _ => False where
  takes := False.elim
  only := nofun

theorem bind {others : α → Language β} (first : reader.Recognizes language)
    (second : ∀ value, (next value).Recognizes (others value)) :
    (reader >>= next).Recognizes (language.followed others) where
  takes := by
    rintro bytes result ⟨front, behind, value, rfl, inFirst, inSecond⟩
    exact (first.takes inFirst).bind ((second value).takes inSecond)
  only cursor result after read := by
    obtain ⟨value, middle, begun, ended⟩ := exists_of_bind read
    obtain ⟨front, inFirst, split⟩ := first.only begun
    -- What the first part means decides which strings may follow.
    obtain ⟨behind, inSecond, rest⟩ := (second value).only ended
    refine ⟨front ++ behind, ⟨front, behind, value, rfl, inFirst, inSecond⟩, ?_⟩
    rw [split, rest, List.append_assoc]

/-- Something made of what was read. -/
theorem map (read : reader.Recognizes language) (change : α → β) :
    (reader >>= fun value => Pure.pure (change value)).Recognizes fun bytes result =>
      ∃ value, language bytes value ∧ result = change value := by
  refine (read.bind fun value => .pure (change value)).congr fun bytes result => ?_
  constructor
  · rintro ⟨_, _, value, rfl, inLanguage, rfl, rfl⟩
    exact ⟨value, by rwa [List.append_nil], rfl⟩
  · rintro ⟨value, inLanguage, rfl⟩
    exact ⟨_, _, value, (List.append_nil _).symm, inLanguage, rfl, rfl⟩

/-- Something made of what trees say. -/
theorem answer {encode : τ → List UInt8} {meaning : τ → α}
    (read : reader.Recognizes (described encode meaning)) (change : α → β) :
    (reader >>= fun value => Pure.pure (change value)).Recognizes
      (described encode fun tree => change (meaning tree)) := by
  refine (read.map change).congr fun bytes result => ?_
  constructor
  · rintro ⟨_, ⟨tree, rfl, rfl⟩, rfl⟩
    exact ⟨tree, rfl, rfl⟩
  · rintro ⟨tree, rfl, rfl⟩
    exact ⟨_, ⟨tree, rfl, rfl⟩, rfl⟩

/-! ### Numbers and bytes -/

theorem u8 : Reader.u8.Recognizes fun bytes byte => bytes = [byte] where
  takes := by
    rintro bytes byte rfl
    exact .u8 byte
  only cursor byte after read := by
    obtain ⟨place, rest⟩ := cursor
    cases rest with
    | nil => cases read
    | cons _ rest =>
      cases read
      exact ⟨_, rfl, rfl⟩

private theorem ofNat_eq_of_mod (n : Nat) (byte : UInt8) (same : n % 256 = byte.toNat) :
    UInt8.ofNat n = byte := by
  apply UInt8.toNat.inj
  rw [UInt8.toNat_ofNat']
  exact same

/-- Two bytes are those of the number they make. -/
theorem encode16_of_bytes (a b : UInt8) :
    encode16 (.ofNat (a.toNat * 256 + b.toNat)) = [a, b] := by
  have := a.toNat_lt
  have := b.toNat_lt
  rw [encode16, UInt16.toNat_ofNat', Nat.mod_eq_of_lt (by omega), bytes16,
    ofNat_eq_of_mod _ a (by omega), ofNat_eq_of_mod _ b (by omega)]

theorem encode32_of_bytes (a b c d : UInt8) :
    encode32 (.ofNat (((a.toNat * 256 + b.toNat) * 256 + c.toNat) * 256 + d.toNat)) =
      [a, b, c, d] := by
  have := a.toNat_lt
  have := b.toNat_lt
  have := c.toNat_lt
  have := d.toNat_lt
  rw [encode32, UInt32.toNat_ofNat', Nat.mod_eq_of_lt (by omega), bytes32,
    ofNat_eq_of_mod _ a (by omega), ofNat_eq_of_mod _ b (by omega),
    ofNat_eq_of_mod _ c (by omega), ofNat_eq_of_mod _ d (by omega)]

theorem u16 : Reader.u16.Recognizes fun bytes word => bytes = encode16 word where
  takes := by
    rintro bytes word rfl
    exact .encode16 word
  only cursor word after read := by
    obtain ⟨place, rest⟩ := cursor
    match rest with
    | [] | [_] => cases read
    | a :: b :: rest =>
      cases read
      exact ⟨_, rfl, by rw [encode16_of_bytes]; rfl⟩

theorem u32 : Reader.u32.Recognizes fun bytes word => bytes = encode32 word where
  takes := by
    rintro bytes word rfl
    exact .encode32 word
  only cursor word after read := by
    obtain ⟨place, rest⟩ := cursor
    match rest with
    | [] | [_] | [_, _] | [_, _, _] => cases read
    | a :: b :: c :: d :: rest =>
      cases read
      exact ⟨_, rfl, by rw [encode32_of_bytes]; rfl⟩

theorem bytes (count : Nat) :
    (Reader.bytes count).Recognizes fun bytes taken => bytes = taken ∧ taken.length = count where
  takes := by
    rintro bytes taken ⟨rfl, rfl⟩
    exact .ofBytes bytes
  only cursor taken after read := by
    unfold Reader.bytes at read
    split at read
    next found rest split =>
      cases read
      obtain ⟨whole, full⟩ := (splitExactly?_eq_some_iff _ _ _ _).mp split
      exact ⟨_, ⟨rfl, full⟩, whole⟩
    next => cases read

/-! ### Structures -/

/-- What stands behind the structure within its length belongs to the string. -/
theorem within (count : Nat) (inner : reader.Recognizes language) :
    (Reader.within count reader).Recognizes fun bytes value =>
      bytes.length = count ∧ ∃ used unread, bytes = used ++ unread ∧ language used value where
  takes := by
    rintro bytes value ⟨rfl, used, unread, rfl, inLanguage⟩
    exact (inner.takes inLanguage).within unread
  only cursor value after read := by
    unfold Reader.within at read
    split at read
    next taken rest split =>
      obtain ⟨whole, full⟩ := (splitExactly?_eq_some_iff _ _ _ _).mp split
      split at read
      next found last inside =>
        cases read
        -- What the body leaves of its cursor is not lost but part of the structure.
        obtain ⟨used, inLanguage, parts⟩ := inner.only inside
        exact ⟨taken, ⟨full, used, last.rest, parts, inLanguage⟩, whole⟩
      next => cases read
    next => cases read

variable {encode : τ → List UInt8} {meaning : τ → α}

/-- By induction on the number of items, which stand behind those already read. -/
private theorem timesBehind (item : reader.Recognizes (described encode meaning)) (seen : List α)
    (count : Nat) :
    (Reader.timesBehind reader seen count).Recognizes fun bytes values =>
      ∃ trees : List τ, trees.length = count ∧ bytes = (trees.map encode).flatten ∧
        values = seen.reverse ++ trees.map meaning := by
  induction count generalizing seen with
  | zero =>
    refine (Recognizes.pure _).congr fun bytes values => ?_
    simp [List.length_eq_zero_iff]
  | succ count ih =>
    refine (item.bind fun value => ih (value :: seen)).congr fun bytes values => ?_
    constructor
    · rintro ⟨_, _, _, rfl, ⟨tree, rfl, rfl⟩, trees, rfl, rfl, rfl⟩
      exact ⟨tree :: trees, rfl, rfl, by simp⟩
    · rintro ⟨_ | ⟨tree, trees⟩, full, rfl, rfl⟩
      · cases full
      · exact ⟨_, _, _, rfl, ⟨tree, rfl, rfl⟩, trees, Nat.succ.inj full, rfl, by simp⟩

theorem times (item : reader.Recognizes (described encode meaning)) (count : Nat) :
    (Reader.times count reader).Recognizes fun bytes values =>
      ∃ trees : List τ, trees.length = count ∧ bytes = (trees.map encode).flatten ∧
        values = trees.map meaning :=
  item.timesBehind [] count

theorem table (item : reader.Recognizes (described encode meaning)) :
    (Reader.table reader).Recognizes
      (described (Table.encode encode) fun table => table.items.map meaning) := by
  refine (Recognizes.u16.bind fun count => item.times count.toNat).congr fun bytes values => ?_
  constructor
  · rintro ⟨_, _, count, rfl, rfl, trees, full, rfl, rfl⟩
    have bound := count.toNat_lt
    refine ⟨⟨trees, by omega⟩, ?_, rfl⟩
    simp only [Table.encode, encodeTable, List.length_map, full]
    rfl
  · rintro ⟨⟨trees, few⟩, rfl, rfl⟩
    have count : (UInt16.ofNat trees.length).toNat = trees.length := by
      rw [UInt16.toNat_ofNat']
      omega
    refine ⟨_, _, .ofNat trees.length, rfl, ?_, trees, count.symm, rfl, rfl⟩
    simp only [ClassFile.encode16, count, List.length_map]

end Recognizes

end Reader

end PackageAudit.ClassFile
