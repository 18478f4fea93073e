/-!
Regular expressions over bytes.

A text is matched byte by byte. What may follow a first byte is a list of expressions, each of them
a part of the expression at hand put before what stands behind it; without repetitions such a list
is never longer than the expression has parts, so matching takes no more steps than the text has
bytes times the square of the parts.
-/

namespace PackageAudit.Ignore

/-- The bytes in some ranges, or all others. -/
structure ByteClass where
  negated : Bool
  ranges : List (UInt8 × UInt8)
  deriving DecidableEq, Repr

def ByteClass.holds (cls : ByteClass) (byte : UInt8) : Bool :=
  (cls.ranges.any fun (low, high) => low ≤ byte && byte ≤ high) != cls.negated

inductive ByteRegex where
  | fail
  | empty
  | one (cls : ByteClass)
  | many (cls : ByteClass)
  | seq (first second : ByteRegex)
  | alt (first second : ByteRegex)
  deriving DecidableEq, Repr

namespace ByteRegex

/-- Both, one after the other, where the first matches more than the empty text. -/
def andThen : ByteRegex → ByteRegex → ByteRegex
  | .empty, second => second
  | first, second => .seq first second

def acceptsEmpty : ByteRegex → Bool
  | .fail | .one _ => false
  | .empty | .many _ => true
  | .seq first second => first.acceptsEmpty && second.acceptsEmpty
  | .alt first second => first.acceptsEmpty || second.acceptsEmpty

def following (byte : UInt8) : ByteRegex → List ByteRegex
  | .fail | .empty => []
  | .one cls => if cls.holds byte then [.empty] else []
  | .many cls => if cls.holds byte then [.many cls] else []
  | .seq first second =>
    (first.following byte).map (·.andThen second) ++
      if first.acceptsEmpty then second.following byte else []
  | .alt first second => first.following byte ++ second.following byte

/-- Whether one of some expressions matches a text. -/
def anyAccepts (regexes : List ByteRegex) : List UInt8 → Bool
  | [] => regexes.any (·.acceptsEmpty)
  | byte :: rest => anyAccepts (regexes.flatMap (·.following byte)).eraseDups rest

def accepts (regex : ByteRegex) (bytes : List UInt8) : Bool := anyAccepts [regex] bytes

def sequence (parts : List ByteRegex) : ByteRegex := parts.foldr andThen .empty

def choice (choices : List ByteRegex) : ByteRegex := choices.foldr .alt .fail

end ByteRegex

end PackageAudit.Ignore
