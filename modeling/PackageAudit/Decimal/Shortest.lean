import PackageAudit.Decimal.Binary64
/-!
The fewest decimal digits that read back as the same floating-point number.

The reals that round to a number form an interval around it, whose ends belong to it exactly when
the significand is even. For one digit, two digits and so on, the two decimals of that length next
to the number are tried: where any decimal of that length lies in the interval one of these two
does, so the first length that succeeds is the shortest, and the nearer of two hits is taken.
Seventeen digits always suffice.
-/

namespace PackageAudit.Decimal

/-- A decimal number `digits · 10 ^ exponent`. -/
structure Scientific where
  digits : Nat
  exponent : Int
  deriving DecidableEq, Repr

def digitCount (n : Nat) : Nat := (Nat.toDigits 10 n).length

/-- The exponent of the leading decimal digit of a positive fraction that is at least 10⁻³⁵⁰. -/
def Ratio.leadingExponent (ratio : Ratio) : Int :=
  (digitCount (ratio.numerator * Nat.pow 10 350 / ratio.denominator) : Int) - 351

def Ratio.shifted (ratio : Ratio) (exponent : Int) : Ratio :=
  if 0 ≤ exponent then ⟨ratio.numerator, ratio.denominator * Nat.pow 10 exponent.toNat⟩
  else ⟨ratio.numerator * Nat.pow 10 (-exponent).toNat, ratio.denominator⟩

/-- The reals that round to a number, in quarters of the unit of its significand: the number itself
is `value`, and the interval runs from `low` to `high`. -/
structure RoundingInterval where
  low : Nat
  value : Nat
  high : Nat
  closed : Bool
  /-- The power of two that is a quarter of the unit. -/
  unit : Int

/-- Below a power of two the neighbouring number is only half as far away. -/
def RoundingInterval.around (significand : Nat) (exponent : Int) : RoundingInterval :=
  let narrow := significand = Binary64.hiddenBit ∧ -1074 < exponent
  { low := 4 * significand - (if narrow then 1 else 2)
    value := 4 * significand
    high := 4 * significand + 2
    closed := significand % 2 = 0
    unit := exponent - 2 }

/-- Whether a whole multiple of a power of ten lies in the interval. -/
def RoundingInterval.holds (interval : RoundingInterval) (digits : Nat) (exponent : Int) : Bool :=
  let low := (Ratio.scaled interval.low interval.unit).shifted exponent
  let high := (Ratio.scaled interval.high interval.unit).shifted exponent
  if interval.closed then
    low.numerator ≤ digits * low.denominator && digits * high.denominator ≤ high.numerator
  else
    low.numerator < digits * low.denominator && digits * high.denominator < high.numerator

/-- The decimal of a given length in the interval that is nearest to the number. -/
def RoundingInterval.nearest? (interval : RoundingInterval) (leading : Int) (length : Nat) :
    Option Scientific :=
  let exponent := leading - (length - 1)
  let value := (Ratio.scaled interval.value interval.unit).shifted exponent
  let below := value.numerator / value.denominator
  -- The number lies between two decimals of this length, of which the nearer one is tried first.
  let nearer := value.roundHalfEven
  let farther := if nearer = below then below + 1 else below
  if interval.holds nearer exponent then some ⟨nearer, exponent⟩
  else if interval.holds farther exponent then some ⟨farther, exponent⟩
  else none

/-- The shortest decimal of a positive number, its digits not ending in zero. -/
def shortest (significand : Nat) (exponent : Int) : Scientific :=
  let interval := RoundingInterval.around significand exponent
  let leading := (Ratio.scaled significand exponent).leadingExponent
  match (List.range 17).findSome? fun shorter => interval.nearest? leading (shorter + 1) with
  | some found => found
  | none => ⟨(Ratio.scaled significand exponent).roundHalfEven, 0⟩

end PackageAudit.Decimal
