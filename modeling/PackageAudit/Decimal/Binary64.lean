/-!
The exact value of a floating-point number, and its text with two decimals.

A finite number of the binary64 format is a whole significand times a power of two, read off its
bits. Every decimal text of the project is computed from that exact value in whole-number
arithmetic. In tables it is rounded to hundredths, a tie going to the even neighbour; the sign of a
negative number is kept even where it rounds to zero.
-/

namespace PackageAudit.Decimal

/-- A binary64 number: a signed `significand · 2 ^ exponent`, an infinity, or not a number. -/
inductive Binary64 where
  | finite (negative : Bool) (significand : Nat) (exponent : Int)
  | infinite (negative : Bool)
  | notANumber
  deriving DecidableEq, Repr

namespace Binary64

/-- What the significand of a normal number has beyond the bits that are stored of it. -/
def hiddenBit : Nat := Nat.pow 2 52

def ofBits (bits : UInt64) : Binary64 :=
  let word := bits.toNat
  let negative := word.testBit 63
  let biased : Nat := word / hiddenBit % 2048
  let stored : Nat := word % hiddenBit
  if biased = 2047 then (if stored = 0 then .infinite negative else .notANumber)
  -- Without the hidden bit the exponent is that of the smallest numbers that have it.
  else if biased = 0 then .finite negative stored (-1074)
  else .finite negative (hiddenBit + stored) ((biased : Int) - 1075)

end Binary64

/-- A non-negative fraction in whole numbers; the denominator is not zero. -/
structure Ratio where
  numerator : Nat
  denominator : Nat
  deriving Repr

/-- The fraction `n · 2 ^ exponent`. -/
def Ratio.scaled (n : Nat) (exponent : Int) : Ratio :=
  if 0 ≤ exponent then ⟨n * Nat.pow 2 exponent.toNat, 1⟩ else ⟨n, Nat.pow 2 (-exponent).toNat⟩

/-- The whole number nearest to a fraction; of two equally near, the even one. -/
def Ratio.roundHalfEven (ratio : Ratio) : Nat :=
  let quotient := ratio.numerator / ratio.denominator
  let twice := 2 * (ratio.numerator % ratio.denominator)
  if twice < ratio.denominator then quotient
  else if ratio.denominator < twice then quotient + 1
  else if quotient % 2 = 0 then quotient else quotient + 1

/-- A count of hundredths as a decimal number. -/
def hundredths (count : Nat) : String :=
  let cents := count % 100
  toString (count / 100) ++ "." ++ (if cents < 10 then "0" else "") ++ toString cents

def Binary64.fixedText : Binary64 → String
  | .finite negative significand exponent =>
    let ratio := Ratio.scaled (significand * 100) exponent
    (if negative then "-" else "") ++ hundredths ratio.roundHalfEven
  | .infinite negative => if negative then "-inf" else "inf"
  | .notANumber => "NaN"

def fixedText (value : Float) : String := (Binary64.ofBits value.toBits).fixedText

end PackageAudit.Decimal
