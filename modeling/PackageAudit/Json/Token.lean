import PackageAudit.Json.Value
/-!
The tokens of JSON text.

The scanner reads one character at a time and keeps what it has seen of the token it is in, so
scanning is a fold over the text. A number or word ends at the first character that cannot belong to
it, and that character then starts the next token; whether the characters of a number form one is
decided when it ends.
-/

namespace PackageAudit.Json

inductive Token where
  | openArray | closeArray | openObject | closeObject | comma | colon
  /-- A value that is neither an array nor an object. -/
  | scalar (value : Json)

/-- A piece of a string: a character, or half of a surrogate pair given by an escape. -/
inductive Piece where
  | char (c : Char)
  | half (unit : Nat)

namespace Piece

/-- The characters already read, latest first, followed by the text of the pieces; a half that is
not followed by its other half has no text. -/
def toTextBehind? (seen : List Char) : List Piece → Option (List Char)
  | [] => some seen.reverse
  | .char c :: rest => toTextBehind? (c :: seen) rest
  | .half high :: .half low :: rest =>
    if high < 0xDC00 && 0xDC00 ≤ low then
      let c := Char.ofNat (0x10000 + (high - 0xD800) * 0x400 + (low - 0xDC00))
      toTextBehind? (c :: seen) rest
    else none
  | .half _ :: _ => none

def toText? (pieces : List Piece) : Option (List Char) := toTextBehind? [] pieces

end Piece

/-- Where the scanner stands, with what it has read of the current token, latest first. -/
inductive Scan where
  | between
  | word (seen : List Char)
  | number (seen : List Char)
  | string (seen : List Piece)
  | escape (seen : List Piece)
  /-- Inside `\u`, with the number of hex digits read and their value. -/
  | unicode (seen : List Piece) (count value : Nat)

def isNumberChar (c : Char) : Bool :=
  c.isDigit || c == '-' || c == '+' || c == '.' || c == 'e' || c == 'E'

/-- The leading decimal digits of a text and what follows them. -/
def takeDigits (cs : List Char) : List Nat × List Char :=
  let (digits, rest) := cs.span Char.isDigit
  (digits.map fun c => c.toNat - '0'.toNat, rest)

/-- Reads a fraction, which needs a digit behind its point. -/
def readFraction? : List Char → Option (Option (List Nat) × List Char)
  | '.' :: rest =>
    match takeDigits rest with
    | ([], _) => none
    | (digits, rest) => some (some digits, rest)
  | rest => some (none, rest)

/-- Reads an exponent up to the end of the number. -/
def readExponent? : List Char → Option (Option (Bool × List Nat))
  | [] => some none
  | mark :: rest =>
    if mark = 'e' || mark = 'E' then
      let (negative, rest) := match rest with
        | '-' :: rest => (true, rest)
        | '+' :: rest => (false, rest)
        | rest => (false, rest)
      match takeDigits rest with
      | ([], _) => none
      | (digits, []) => some (some (negative, digits))
      | (_, _ :: _) => none
    else none

/-- Reads a number without leading zeros, filling the whole text. -/
def readNumeral? (cs : List Char) : Option Numeral := do
  let (negative, cs) := match cs with
    | '-' :: rest => (true, rest)
    | cs => (false, cs)
  let (whole, rest) := takeDigits cs
  match whole with
  | [] => none
  -- No digit may follow a leading zero.
  | 0 :: _ :: _ => none
  | _ =>
    let (fraction, rest) ← readFraction? rest
    let exponent ← readExponent? rest
    return { negative, whole, fraction, exponent }

def readWord? (cs : List Char) : Option Json :=
  if cs = "null".toList then some .null
  else if cs = "true".toList then some (.bool true)
  else if cs = "false".toList then some (.bool false)
  else none

/-- What a character starts when no token is open. -/
def startToken (c : Char) : Option (List Token × Scan) :=
  match c with
  | '[' => some ([.openArray], .between)
  | ']' => some ([.closeArray], .between)
  | '\x7b' => some ([.openObject], .between)
  | '\x7d' => some ([.closeObject], .between)
  | ',' => some ([.comma], .between)
  | ':' => some ([.colon], .between)
  | '"' => some ([], .string [])
  | _ =>
    if c = ' ' || c = '\n' || c = '\t' || c = '\r' then some ([], .between)
    else if c.isDigit || c = '-' then some ([], .number [c])
    else if c.isLower then some ([], .word [c])
    else none

/-- The character that a single-letter escape stands for. -/
def simpleEscape? (c : Char) : Option Char :=
  match c with
  | '"' => some '"'
  | '\\' => some '\\'
  | '/' => some '/'
  | 'b' => some '\x08'
  | 'f' => some '\x0c'
  | 'n' => some '\n'
  | 'r' => some '\r'
  | 't' => some '\t'
  | _ => none

def hexDigit? (c : Char) : Option Nat :=
  if '0' ≤ c ∧ c ≤ '9' then some (c.toNat - '0'.toNat)
  else if 'a' ≤ c ∧ c ≤ 'f' then some (c.toNat - 'a'.toNat + 10)
  else if 'A' ≤ c ∧ c ≤ 'F' then some (c.toNat - 'A'.toNat + 10)
  else none

def pieceOfUnit (unit : Nat) : Piece :=
  if 0xD800 ≤ unit && unit < 0xE000 then .half unit else .char (Char.ofNat unit)

/-- Ends a token at `c`, which then starts the next one. -/
def endToken (value : Option Json) (c : Char) : Option (List Token × Scan) := do
  let value ← value
  let (tokens, scan) ← startToken c
  return (.scalar value :: tokens, scan)

/-- Reads one character: the tokens it ends, and where the scanner stands behind it. -/
def scanChar (scan : Scan) (c : Char) : Option (List Token × Scan) :=
  match scan with
  | .between => startToken c
  | .word seen =>
    if c.isLower then some ([], .word (c :: seen)) else endToken (readWord? seen.reverse) c
  | .number seen =>
    if isNumberChar c then some ([], .number (c :: seen))
    else endToken ((readNumeral? seen.reverse).map .number) c
  | .string seen =>
    if c = '"' then
      some ([.scalar (.string ((Piece.toText? seen.reverse).map String.ofList))], .between)
    else if c = '\\' then some ([], .escape seen)
    -- Control characters must be escaped.
    else if c.toNat < 0x20 then none
    else some ([], .string (.char c :: seen))
  | .escape seen =>
    if c = 'u' then some ([], .unicode seen 0 0)
    else (simpleEscape? c).map fun e => ([], .string (.char e :: seen))
  | .unicode seen count value => do
    let digit ← hexDigit? c
    let value := value * 16 + digit
    if count = 3 then return ([], .string (pieceOfUnit value :: seen))
    else return ([], .unicode seen (count + 1) value)

/-- The last token of a text that ends here. -/
def finishScan (scan : Scan) : Option (List Token) :=
  match scan with
  | .between => some []
  | .word seen => (readWord? seen.reverse).map fun value => [.scalar value]
  | .number seen => (readNumeral? seen.reverse).map fun value => [.scalar (.number value)]
  | .string _ | .escape _ | .unicode _ _ _ => none

def scanFrom (scan : Scan) (seen : List Token) : List Char → Option (List Token)
  | [] => (finishScan scan).map fun last => seen.reverse ++ last
  | c :: rest =>
    match scanChar scan c with
    | none => none
    | some (tokens, scan) => scanFrom scan (tokens.reverse ++ seen) rest

def tokens? (text : String) : Option (List Token) := scanFrom .between [] text.toList

end PackageAudit.Json
