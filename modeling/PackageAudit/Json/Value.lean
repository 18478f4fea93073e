/-!
JSON values.

Numbers are kept as they are written and objects as lists of members, because configuration and
rule files are judged on both: `1.0` is no integer, and a field given twice is a mistake. A string
whose escapes name half of a surrogate pair is well-formed JSON that stands for no text; it is
recorded as `none` and accepted only where the value is skipped.
-/

namespace PackageAudit

/-- A number as written; each digit is at most nine. -/
structure Numeral where
  negative : Bool
  whole : List Nat
  fraction : Option (List Nat)
  /-- The digits of the exponent, and whether a minus sign stands before them. -/
  exponent : Option (Bool × List Nat)
  deriving DecidableEq, Repr

namespace Numeral

def digitsValue (digits : List Nat) : Nat := digits.foldl (fun value digit => value * 10 + digit) 0

/-- The decimal digits of a number, most significant first. -/
def digitsOf (n : Nat) : List Nat := (Nat.toDigits 10 n).map fun c => c.toNat - '0'.toNat

def ofNat (n : Nat) : Numeral := ⟨false, digitsOf n, none, none⟩

/-- The integer a numeral writes without fraction, exponent or a sign on zero. -/
def toInt? (numeral : Numeral) : Option Int :=
  if numeral.fraction.isSome || numeral.exponent.isSome then none
  else
    let value := digitsValue numeral.whole
    if numeral.negative then (if value = 0 then none else some (-(value : Int)))
    else some value

end Numeral

inductive Json where
  | null
  | bool (value : Bool)
  | number (value : Numeral)
  | string (text : Option String)
  | array (items : List Json)
  | object (members : List (Option String × Json))
  deriving Repr

namespace Json

def text (value : String) : Json := .string (some value)

def nat (value : Nat) : Json := .number (.ofNat value)

def texts (values : List String) : Json := .array (values.map text)

def record (members : List (String × Json)) : Json :=
  .object (members.map fun (name, value) => (some name, value))

end Json

end PackageAudit
