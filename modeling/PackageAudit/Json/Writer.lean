import PackageAudit.Json.Value
/-!
Writing JSON values, on one line or indented by two spaces a level.

Text is written raw except for the quote, the backslash and the characters below U+0020, so every
value reads back as itself. A string without text is written as one lone surrogate escape, which is
what such a string is.
-/

namespace PackageAudit.Json

def hexDigitChar (n : Nat) : Char := Nat.digitChar n

def escapeChar (c : Char) : List Char :=
  match c with
  | '"' => ['\\', '"']
  | '\\' => ['\\', '\\']
  | '\x08' => ['\\', 'b']
  | '\x0c' => ['\\', 'f']
  | '\n' => ['\\', 'n']
  | '\r' => ['\\', 'r']
  | '\t' => ['\\', 't']
  | c =>
    if c.toNat < 0x20 then
      ['\\', 'u', '0', '0', hexDigitChar (c.toNat / 16), hexDigitChar (c.toNat % 16)]
    else [c]

def quoted (text : Option String) : String :=
  match text with
  | some text => "\"" ++ String.ofList (text.toList.flatMap escapeChar) ++ "\""
  | none => "\"\\ud800\""

def writeDigits (digits : List Nat) : String := String.ofList (digits.map Nat.digitChar)

/-- An exponent that is not negative carries a plus sign. -/
def writeNumeral (numeral : Numeral) : String :=
  (if numeral.negative then "-" else "") ++ writeDigits numeral.whole ++
    (match numeral.fraction with
      | some digits => "." ++ writeDigits digits
      | none => "") ++
    (match numeral.exponent with
      | some (negative, digits) => (if negative then "e-" else "e+") ++ writeDigits digits
      | none => "")

mutual

def compact : Json → String
  | .null => "null"
  | .bool true => "true"
  | .bool false => "false"
  | .number numeral => writeNumeral numeral
  | .string text => quoted text
  | .array items => "[" ++ compactItems items ++ "]"
  | .object members => "\x7b" ++ compactMembers members ++ "\x7d"

def compactItems : List Json → String
  | [] => ""
  | [item] => compact item
  | item :: rest => compact item ++ "," ++ compactItems rest

def compactMembers : List (Option String × Json) → String
  | [] => ""
  | [(key, value)] => quoted key ++ ":" ++ compact value
  | (key, value) :: rest => quoted key ++ ":" ++ compact value ++ "," ++ compactMembers rest

end

def lineStart (level : Nat) : String := "\n" ++ String.ofList (List.replicate (2 * level) ' ')

mutual

/-- The value over several lines, where `level` is the level of the line it starts on. -/
def pretty (level : Nat) : Json → String
  | .null => "null"
  | .bool true => "true"
  | .bool false => "false"
  | .number numeral => writeNumeral numeral
  | .string text => quoted text
  | .array [] => "[]"
  | .array (item :: rest) => "[" ++ prettyItems (level + 1) (item :: rest) ++ lineStart level ++ "]"
  | .object [] => "\x7b\x7d"
  | .object (member :: rest) =>
    "\x7b" ++ prettyMembers (level + 1) (member :: rest) ++ lineStart level ++ "\x7d"

def prettyItems (level : Nat) : List Json → String
  | [] => ""
  | [item] => lineStart level ++ pretty level item
  | item :: rest => lineStart level ++ pretty level item ++ "," ++ prettyItems level rest

def prettyMembers (level : Nat) : List (Option String × Json) → String
  | [] => ""
  | [(key, value)] => lineStart level ++ quoted key ++ ": " ++ pretty level value
  | (key, value) :: rest =>
    lineStart level ++ quoted key ++ ": " ++ pretty level value ++ "," ++ prettyMembers level rest

end

end PackageAudit.Json
