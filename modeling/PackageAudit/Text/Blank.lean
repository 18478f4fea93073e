/-!
White space and comma-separated lists.

Configuration text, filter patterns and command-line lists are all trimmed by the Unicode property
White_Space, whose twenty-five characters are listed here range by range; the lists drop entries
that are blank after trimming.
-/

namespace PackageAudit.Text

/-- The characters with the Unicode property White_Space. -/
def isBlank (c : Char) : Bool :=
  let code := c.toNat
  (9 ≤ code && code ≤ 13) || code == 0x20 || code == 0x85 || code == 0xA0 || code == 0x1680 ||
    (0x2000 ≤ code && code ≤ 0x200A) || code == 0x2028 || code == 0x2029 || code == 0x202F ||
    code == 0x205F || code == 0x3000

def trimStart (cs : List Char) : List Char := cs.dropWhile isBlank

def trimEnd (cs : List Char) : List Char := (cs.reverse.dropWhile isBlank).reverse

def trim (text : String) : String := String.ofList (trimEnd (trimStart text.toList))

/-- The pieces between the occurrences of one character, empty pieces included. -/
def pieces (separator : Char) : List Char → List (List Char)
  | [] => [[]]
  | c :: rest =>
    match pieces separator rest with
    | [] => [[c]]
    | piece :: others =>
      if c = separator then [] :: piece :: others else (c :: piece) :: others

/-- The trimmed, non-blank entries of a comma-separated list. -/
def splitList (text : String) : List String :=
  ((pieces ',' text.toList).map fun piece => String.ofList (trimEnd (trimStart piece))).filter
    (! ·.isEmpty)

end PackageAudit.Text
