import PackageAudit.Decimal.Shortest
import PackageAudit.Json.Value
/-!
Floating-point numbers in JSON.

A number is written with the fewest digits that read back as it: positionally, and always with a
point, from 10⁻⁵ up to 10¹⁶, and with an exponent beyond. What is no number is written as `null`.

Reading takes the leading digits that fit in 64 bits as one whole number, rounds that, and then
multiplies or divides once by a power of ten, which is exact for short numbers and may miss the
nearest double by a unit for long ones. A number too large for a double is refused.
-/

namespace PackageAudit

open Decimal

namespace Numeral

def zeros (count : Nat) : List Nat := List.replicate count 0

/-- The numeral of `digits · 10 ^ exponent`, where `leading` is the exponent of the first digit. -/
def ofScientific (negative : Bool) (decimal : Scientific) : Numeral :=
  let digits := digitsOf decimal.digits
  let stripped := (digits.reverse.dropWhile (· == 0)).reverse
  let leading := decimal.exponent + (digits.length - 1 : Nat)
  if leading < -5 ∨ 16 ≤ leading then
    { negative
      whole := stripped.take 1
      fraction := if stripped.length = 1 then none else some (stripped.drop 1)
      exponent := some (decide (leading < 0), digitsOf leading.natAbs) }
  -- A small number has its zeros behind the point, a large one before it.
  else if leading < 0 then
    { negative
      whole := [0]
      fraction := some (zeros (leading.natAbs - 1) ++ stripped)
      exponent := none }
  else
    let wholeLength := leading.toNat + 1
    { negative
      whole := stripped.take wholeLength ++ zeros (wholeLength - stripped.length)
      fraction := some (if stripped.length ≤ wholeLength then [0] else stripped.drop wholeLength)
      exponent := none }

/-- The leading digits that fit in 64 bits, as one number, and the digits left over. -/
def takeWord (value : Nat) : List Nat → Nat × List Nat
  | [] => (value, [])
  | digit :: rest =>
    if value * 10 + digit < UInt64.size then takeWord (value * 10 + digit) rest
    else (value, digit :: rest)

/-- Scales by a power of ten in one operation, after steps of 10⁻³⁰⁸ where the power is smaller. -/
def scaleFloat? : Nat → Float → Int → Option Float
  | 0, _, _ => none
  | steps + 1, value, exponent =>
    if exponent.natAbs ≤ 308 then
      let power := Float.ofScientific 1 false exponent.natAbs
      if 0 ≤ exponent then
        let product := value * power
        if product.isInf then none else some product
      else some (value / power)
    else if value == 0 then some value
    else if 0 ≤ exponent then none
    else scaleFloat? steps (value / Float.ofScientific 1 false 308) (exponent + 308)

def toFloat? (numeral : Numeral) : Option Float :=
  let (significand, overflow) := takeWord 0 numeral.whole
  let (significand, leftOver) := takeWord significand (numeral.fraction.getD [])
  let fractionDigits := (numeral.fraction.getD []).length - leftOver.length
  let written : Int := match numeral.exponent with
    | some (true, digits) => -(digitsValue digits : Int)
    | some (false, digits) => digitsValue digits
    | none => 0
  let exponent := (overflow.length : Int) - fractionDigits + written
  let sign (value : Float) := if numeral.negative then -value else value
  if significand = 0 then some (sign 0)
  -- No significand of 64 bits is large enough to keep the number from rounding to zero.
  else if exponent < -2000 then some (sign 0)
  else (scaleFloat? 10 (UInt64.ofNat significand).toFloat exponent).map sign

end Numeral

namespace Json

def ofBinary64 : Binary64 → Json
  | .finite negative 0 _ => .number ⟨negative, [0], some [0], none⟩
  | .finite negative significand exponent =>
    .number (.ofScientific negative (shortest significand exponent))
  | _ => .null

def float (value : Float) : Json := ofBinary64 (Binary64.ofBits value.toBits)

def float? : Json → Option Float
  | .number numeral => numeral.toFloat?
  | _ => none

end Json

end PackageAudit
