/-!
The text of class files.

Class files write text as UTF-8 with two changes: a NUL takes two bytes, and a character above
U+FFFF is written as the two halves of its surrogate pair, three bytes each. Bytes that are plain
UTF-8 are read as such; all others are read unit by unit, where a byte that starts nothing and a
half without its partner become U+FFFD.
-/

namespace PackageAudit.Text

/-- Reads sixteen-bit units behind those already read, latest first. Continuation bytes count by
their low six bits, whatever their high bits are. -/
def unitsBehind (seen : List Nat) : List UInt8 → List Nat
  | [] => seen.reverse
  | first :: rest =>
    let lead := first.toNat
    if lead < 0x80 then unitsBehind (lead :: seen) rest
    else
      match rest with
      | second :: third :: others =>
        if lead / 32 = 6 then
          unitsBehind ((lead % 32 * 64 + second.toNat % 64) :: seen) (third :: others)
        else if lead / 16 = 14 then
          unitsBehind
            ((lead % 16 * 4096 + second.toNat % 64 * 64 + third.toNat % 64) :: seen) others
        -- What follows a byte that starts nothing is read on its own.
        else unitsBehind (0xFFFD :: seen) (second :: third :: others)
      | [second] =>
        if lead / 32 = 6 then unitsBehind ((lead % 32 * 64 + second.toNat % 64) :: seen) []
        else unitsBehind (0xFFFD :: seen) [second]
      | [] => unitsBehind (0xFFFD :: seen) []

def isHighHalf (unit : Nat) : Bool := 0xD800 ≤ unit && unit < 0xDC00

def isLowHalf (unit : Nat) : Bool := 0xDC00 ≤ unit && unit < 0xE000

/-- The characters of sixteen-bit units, behind those already read, latest first. -/
def charsBehind (seen : List Char) : List Nat → List Char
  | [] => seen.reverse
  | high :: low :: rest =>
    if isHighHalf high && isLowHalf low then
      let c := Char.ofNat (0x10000 + (high - 0xD800) * 0x400 + (low - 0xDC00))
      charsBehind (c :: seen) rest
    -- A half without its partner costs nothing of what follows.
    else if isHighHalf high || isLowHalf high then charsBehind ('\uFFFD' :: seen) (low :: rest)
    else charsBehind (Char.ofNat high :: seen) (low :: rest)
  | [unit] =>
    if isHighHalf unit || isLowHalf unit then charsBehind ('\uFFFD' :: seen) []
    else charsBehind (Char.ofNat unit :: seen) []

def ofUtf8? (bytes : List UInt8) : Option String := String.fromUTF8? ⟨bytes.toArray⟩

def utf8 (text : String) : List UInt8 := text.toByteArray.data.toList

/-- The text that bytes hold unit by unit. -/
def ofUnits (bytes : List UInt8) : String := String.ofList (charsBehind [] (unitsBehind [] bytes))

/-- The text of a class-file constant. -/
def ofModifiedUtf8 (bytes : List UInt8) : String :=
  match ofUtf8? bytes with
  | some text => text
  | none => ofUnits bytes

theorem ofModifiedUtf8_utf8 (text : String) : ofModifiedUtf8 (utf8 text) = text := by
  have plain : ofUtf8? (utf8 text) = some text := by
    change String.fromUTF8? text.toByteArray = some text
    rw [String.fromUTF8?, dif_pos text.isValidUTF8]
    rfl
  rw [ofModifiedUtf8, plain]

end PackageAudit.Text
