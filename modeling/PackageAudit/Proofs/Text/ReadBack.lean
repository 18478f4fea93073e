import PackageAudit.Proofs.Text.ByteOrder
/-!
Reading the text of class files back.

Class files write text as sixteen-bit units, each in one to three bytes. A character up to U+FFFF is one
unit and is written as in UTF-8, but for NUL; any other is the two halves of its surrogate pair. Reading
goes back in two steps, from bytes to units and from units to characters, and either step reads a list
piece by piece, whatever stands before and behind a piece.

Bytes that happen to be plain UTF-8 are not read by units. That makes no difference: no byte in a class
file's text begins a sequence of four bytes, and plain UTF-8 without such a sequence is read alike by units.
-/

namespace PackageAudit.Text

open String (utf8EncodeChar)

/-! ### Writing -/

/-- The longest form in which UTF-8 writes what fits sixteen bits. -/
def inThreeBytes (unit : Nat) : List UInt8 :=
  [.ofNat (unit / 4096 % 16 + 0xE0), .ofNat (unit / 64 % 64 + 0x80), .ofNat (unit % 64 + 0x80)]

/-- The first half of the surrogate pair of a character above U+FFFF. -/
def highHalf (c : Char) : Nat := 0xD800 + (c.toNat - 0x10000) / 0x400

def lowHalf (c : Char) : Nat := 0xDC00 + (c.toNat - 0x10000) % 0x400

/-- The sixteen-bit units of a character. -/
def unitsOf (c : Char) : List Nat :=
  if 0x10000 ≤ c.toNat then [highHalf c, lowHalf c] else [c.toNat]

/-- The bytes of a character in a class file. -/
def modifiedUtf8Char (c : Char) : List UInt8 :=
  if c = '\x00' then [0xC0, 0x80]
  else if 0x10000 ≤ c.toNat then inThreeBytes (highHalf c) ++ inThreeBytes (lowHalf c)
  else utf8EncodeChar c

def modifiedUtf8 (text : String) : List UInt8 := text.toList.flatMap modifiedUtf8Char

/-- No character is itself a half of a surrogate pair. -/
theorem toNat_lt_or_lt (c : Char) : c.toNat < 0xD800 ∨ 0xDFFF < c.toNat ∧ c.toNat < 0x110000 := by
  have valid := c.valid
  simp only [UInt32.isValidChar, Nat.isValidChar] at valid
  exact valid

theorem halves_lie {c : Char} (above : 0x10000 ≤ c.toNat) :
    (0xD800 ≤ highHalf c ∧ highHalf c < 0xDC00) ∧ 0xDC00 ≤ lowHalf c ∧ lowHalf c < 0xE000 := by
  have code := toNat_lt_or_lt c
  rw [highHalf, lowHalf]
  omega

/-! ### Reading piece by piece -/

section Gathers

variable {α β γ : Type} {read : List β → List α → γ}

/-- A reader that keeps its results latest first takes a piece of its input for some results. -/
def Gathers (read : List β → List α → γ) (piece : List α) (results : List β) : Prop :=
  ∀ seen rest, read seen (piece ++ rest) = read (results.reverse ++ seen) rest

theorem Gathers.append {one other : List α} {first second : List β} (reads : Gathers read one first)
    (next : Gathers read other second) : Gathers read (one ++ other) (first ++ second) := by
  intro seen rest
  rw [List.append_assoc, reads, next, List.reverse_append, List.append_assoc]

theorem Gathers.flatMap {δ : Type} {write : δ → List α} {results : δ → List β} (items : List δ)
    (reads : ∀ item ∈ items, Gathers read (write item) (results item)) :
    Gathers read (items.flatMap write) (items.flatMap results) := by
  induction items with
  | nil => exact fun _ _ => rfl
  | cons item items ih =>
    rw [List.forall_mem_cons] at reads
    exact reads.1.append (ih reads.2)

theorem Gathers.whole {piece : List α} {results : List β} (reads : Gathers read piece results) :
    read [] piece = read results.reverse [] := by
  have all := reads [] []
  rwa [List.append_nil, List.append_nil] at all

end Gathers

/-! ### From bytes to units -/

theorem gathers_one {first : UInt8} (plain : first.toNat < 0x80) :
    Gathers unitsBehind [first] [first.toNat] := by
  intro seen rest
  rw [List.singleton_append, unitsBehind.eq_def]
  exact if_pos plain

theorem gathers_two {first second : UInt8} (lead : first.toNat / 32 = 6) :
    Gathers unitsBehind [first, second] [first.toNat % 32 * 64 + second.toNat % 64] := by
  intro seen rest
  have wide : ¬first.toNat < 0x80 := by omega
  -- A third byte, if there is one, is looked at but not taken.
  cases rest <;> simp [unitsBehind, wide, lead]

theorem gathers_three {first second third : UInt8} (lead : first.toNat / 16 = 14) :
    Gathers unitsBehind [first, second, third]
      [first.toNat % 16 * 4096 + second.toNat % 64 * 64 + third.toNat % 64] := by
  intro seen rest
  have wide : ¬first.toNat < 0x80 := by omega
  -- The lead of three bytes is not mistaken for the lead of two.
  have longer : ¬first.toNat / 32 = 6 := by omega
  simp [unitsBehind, wide, longer, lead]

theorem gathers_inThreeBytes {unit : Nat} (bound : unit < 0x10000) :
    Gathers unitsBehind (inThreeBytes unit) [unit] := by
  have reads := @gathers_three (.ofNat (unit / 4096 % 16 + 0xE0)) (.ofNat (unit / 64 % 64 + 0x80))
    (.ofNat (unit % 64 + 0x80)) (by rw [UInt8.toNat_ofNat']; omega)
  simp only [UInt8.toNat_ofNat'] at reads
  have value : (unit / 4096 % 16 + 0xE0) % 2 ^ 8 % 16 * 4096 +
      (unit / 64 % 64 + 0x80) % 2 ^ 8 % 64 * 64 + (unit % 64 + 0x80) % 2 ^ 8 % 64 = unit := by
    omega
  rwa [value] at reads

/-- A character that UTF-8 writes in at most three bytes is read as one unit. -/
theorem gathers_utf8EncodeChar {c : Char} (bound : c.val.toNat < 0x10000) :
    Gathers unitsBehind (utf8EncodeChar c) [c.val.toNat] := by
  -- One case for each length; the longest form has its own lemma, as halves of pairs take it too.
  simp only [utf8EncodeChar]
  split_ifs with one two three
  · have same : (UInt8.ofNat c.val.toNat).toNat = c.val.toNat := by
      rw [UInt8.toNat_ofNat']
      omega
    have reads := @gathers_one (.ofNat c.val.toNat) (by omega)
    rwa [same] at reads
  · have reads := @gathers_two (.ofNat (c.val.toNat / 64 % 32 + 192))
      (.ofNat (c.val.toNat % 64 + 128)) (by rw [UInt8.toNat_ofNat']; omega)
    simp only [UInt8.toNat_ofNat'] at reads
    have value : (c.val.toNat / 64 % 32 + 192) % 2 ^ 8 % 32 * 64 +
        (c.val.toNat % 64 + 128) % 2 ^ 8 % 64 = c.val.toNat := by
      omega
    rwa [value] at reads
  · exact gathers_inThreeBytes bound
  · omega

theorem gathers_modifiedUtf8Char (c : Char) :
    Gathers unitsBehind (modifiedUtf8Char c) (unitsOf c) := by
  rw [modifiedUtf8Char, unitsOf]
  by_cases nul : c = '\x00'
  · rw [if_pos nul, nul, if_neg (by decide)]
    exact gathers_two (by decide)
  · rw [if_neg nul]
    split
    next above =>
      obtain ⟨⟨_, high⟩, _, low⟩ := halves_lie above
      exact (gathers_inThreeBytes (by omega)).append (gathers_inThreeBytes (by omega))
    next below => exact gathers_utf8EncodeChar (Nat.lt_of_not_le below)

/-! ### From units to characters -/

theorem gathers_unitsOf (c : Char) : Gathers charsBehind (unitsOf c) [c] := by
  have code := toNat_lt_or_lt c
  intro seen rest
  rw [unitsOf]
  split
  next above =>
    have lie := halves_lie above
    have joined : 0x10000 + (highHalf c - 0xD800) * 0x400 + (lowHalf c - 0xDC00) = c.toNat := by
      rw [highHalf, lowHalf]
      omega
    simp [charsBehind, isHighHalf, isLowHalf, lie, joined]
  next below =>
    -- A unit that is no half of a pair is not joined to the one behind it.
    have whole : isHighHalf c.toNat = false ∧ isLowHalf c.toNat = false := by
      simp only [isHighHalf, isLowHalf, Bool.and_eq_false_iff, decide_eq_false_iff_not]
      omega
    cases rest <;> simp [charsBehind, whole]

/-- Pieces that are read as the units of their characters are read as the text of them all. -/
theorem ofUnits_flatMap {write : Char → List UInt8} {text : String}
    (reads : ∀ c ∈ text.toList, Gathers unitsBehind (write c) (unitsOf c)) :
    ofUnits (text.toList.flatMap write) = text := by
  have units := (Gathers.flatMap text.toList reads).whole
  have chars := (Gathers.flatMap text.toList fun c _ => gathers_unitsOf c).whole
  simp only [unitsBehind, List.reverse_reverse] at units
  simp only [charsBehind, List.reverse_reverse, List.flatMap_singleton'] at chars
  rw [ofUnits, units, chars, String.ofList_toList]

theorem ofUnits_modifiedUtf8 (text : String) : ofUnits (modifiedUtf8 text) = text :=
  ofUnits_flatMap fun c _ => gathers_modifiedUtf8Char c

theorem ofUnits_utf8 {text : String} (short : ∀ c ∈ text.toList, c.toNat < 0x10000) :
    ofUnits (utf8 text) = text := by
  rw [utf8_eq_flatMap]
  apply ofUnits_flatMap
  intro c member
  rw [unitsOf, if_neg (Nat.not_le.mpr (short c member))]
  exact gathers_utf8EncodeChar (short c member)

/-! ### Which reading is taken -/

theorem ofUtf8?_eq_some_iff {bytes : List UInt8} {text : String} :
    ofUtf8? bytes = some text ↔ bytes = utf8 text := by
  rw [ofUtf8?, String.fromUTF8?]
  constructor
  · intro read
    split at read
    next valid =>
      cases read
      rfl
    next => cases read
  · rintro rfl
    exact dif_pos text.isValidUTF8

theorem lt_of_mem_inThreeBytes {unit : Nat} {byte : UInt8} (member : byte ∈ inThreeBytes unit) :
    byte.toNat < 0xF0 := by
  simp only [inThreeBytes, List.mem_cons, List.not_mem_nil, or_false] at member
  obtain rfl | rfl | rfl := member <;> rw [UInt8.toNat_ofNat'] <;> omega

theorem lt_of_mem_modifiedUtf8Char {c : Char} {byte : UInt8} (member : byte ∈ modifiedUtf8Char c) :
    byte.toNat < 0xF0 := by
  rw [modifiedUtf8Char] at member
  split_ifs at member with nul above
  · obtain rfl | rfl := List.mem_pair.mp member <;> decide
  · exact (List.mem_append.mp member).elim lt_of_mem_inThreeBytes lt_of_mem_inThreeBytes
  · have below : c.val.toNat < 0x10000 := Nat.lt_of_not_le above
    simp only [utf8EncodeChar] at member
    split_ifs at member with one two three
    · rw [List.mem_singleton.mp member, UInt8.toNat_ofNat']
      omega
    · obtain rfl | rfl := List.mem_pair.mp member <;> rw [UInt8.toNat_ofNat'] <;> omega
    · exact lt_of_mem_inThreeBytes member
    · omega

/-- A character that is no single unit begins with a byte that begins nothing else. -/
theorem exists_mem_utf8 {text : String} {c : Char} (member : c ∈ text.toList)
    (above : 0x10000 ≤ c.val.toNat) : ∃ byte ∈ utf8 text, 0xF0 ≤ byte.toNat := by
  refine ⟨.ofNat (c.val.toNat / 262144 % 8 + 240), ?_, ?_⟩
  · rw [utf8_eq_flatMap]
    refine List.mem_flatMap_of_mem member ?_
    simp only [utf8EncodeChar]
    rw [if_neg (by omega), if_neg (by omega), if_neg (by omega)]
    exact List.mem_cons_self
  · rw [UInt8.toNat_ofNat']
    omega

/-- Where the form of one text in class files happens to be the UTF-8 of another, that text has no
character above U+FFFF. -/
theorem short_of_utf8_eq {text other : String} (same : modifiedUtf8 text = utf8 other) :
    ∀ c ∈ other.toList, c.toNat < 0x10000 := by
  intro c member
  by_contra above
  obtain ⟨byte, held, long⟩ := exists_mem_utf8 member (Nat.le_of_not_lt above)
  rw [← same] at held
  obtain ⟨_, _, written⟩ := List.mem_flatMap.mp held
  exact absurd (lt_of_mem_modifiedUtf8Char written) (Nat.not_lt.mpr long)

theorem toNat_lt_of_utf8Size_lt {c : Char} (short : c.utf8Size < 4) : c.toNat < 0x10000 := by
  by_contra above
  have four : c.utf8Size = 4 :=
    Char.utf8Size_eq_four_iff.mpr (UInt32.lt_iff_toNat_lt.mpr (Nat.le_of_not_lt above))
  omega

/-- A text is read back from its UTF-8 and from its form in class files, and plain UTF-8 without sequences
of four bytes is read alike when it is read by units. -/
theorem ofModifiedUtf8_reads_back (text : String) :
    ofModifiedUtf8 (utf8 text) = text ∧ ofModifiedUtf8 (modifiedUtf8 text) = text ∧
      ∀ bytes, ofUtf8? bytes = some text → (∀ c ∈ text.toList, c.utf8Size < 4) →
        ofUnits bytes = text := by
  refine ⟨ofModifiedUtf8_utf8 text, ?_, ?_⟩
  · rw [ofModifiedUtf8]
    cases plain : ofUtf8? (modifiedUtf8 text) with
    | none => exact ofUnits_modifiedUtf8 text
    | some other =>
      -- The bytes are plain UTF-8 of some text, but one without long characters, so units say the same.
      have same := ofUtf8?_eq_some_iff.mp plain
      calc other = ofUnits (utf8 other) := (ofUnits_utf8 (short_of_utf8_eq same)).symm
        _ = ofUnits (modifiedUtf8 text) := by rw [same]
        _ = text := ofUnits_modifiedUtf8 text
  · intro bytes plain short
    rw [ofUtf8?_eq_some_iff.mp plain]
    exact ofUnits_utf8 fun c member => toNat_lt_of_utf8Size_lt (short c member)

/-- A NUL and a character above U+FFFF, and then the three shorter lengths of UTF-8. -/
theorem ofModifiedUtf8_reads_back_all_lengths :
    modifiedUtf8 "a\x00😀" = [0x61, 0xC0, 0x80, 0xED, 0xA0, 0xBD, 0xED, 0xB8, 0x80] ∧
      ofModifiedUtf8 (modifiedUtf8 "a\x00😀") = "a\x00😀" ∧
      ofUtf8? [0x61, 0xC3, 0xA9, 0xE2, 0x82, 0xAC] = some "aé€" ∧
      ofUnits [0x61, 0xC3, 0xA9, 0xE2, 0x82, 0xAC] = "aé€" := by
  have plain : ofUtf8? [0x61, 0xC3, 0xA9, 0xE2, 0x82, 0xAC] = some "aé€" :=
    ofUtf8?_eq_some_iff.mpr (by decide +kernel)
  have short : "aé€".toList.all (·.utf8Size < 4) = true := by decide +kernel
  simp only [List.all_eq_true, decide_eq_true_eq] at short
  exact ⟨by decide +kernel, (ofModifiedUtf8_reads_back "a\x00😀").2.1, plain,
    (ofModifiedUtf8_reads_back "aé€").2.2 _ plain short⟩

end PackageAudit.Text
