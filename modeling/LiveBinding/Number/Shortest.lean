import LiveBinding.Number.Basic

/-!
# Shortest decimals

The decimal with the fewest digits that reads back as a given positive number, and of those the
nearest. The decimals with `n` significant digits form a grid around the number; if a point of the
grid reads back as the number, one of its two neighbours on the grid does. So it is enough to test
the neighbours on the grids for `n = 1, …, 17`, in exact arithmetic.
-/

namespace LiveBinding

/-- A positive decimal `digits * 10 ^ exponent`, the last digit not zero. -/
structure Decimal where
  digits : Nat
  exponent : Int
  deriving DecidableEq, Repr

/-- Which of two neighbours that are equally near to the number is taken. -/
inductive Tie where
  | up
  | even
  deriving DecidableEq, Repr

namespace Decimal

/-- The digits of a decimal, first to last. -/
def digitChars (d : Decimal) : List Char := Nat.toDigits 10 d.digits

/-- The exponent of the first digit: the value is `d.ddd * 10 ^ E`. -/
def leading (d : Decimal) : Int := d.exponent + (d.digitChars.length - 1 : Nat)

/-- The same value without zeros at the end of its digits; at most `fuel` of them are removed. -/
def stripZeros : Nat → Nat → Int → Decimal
  | 0, digits, exponent => ⟨digits, exponent⟩
  | fuel + 1, digits, exponent =>
    if digits % 10 = 0 then stripZeros fuel (digits / 10) (exponent + 1) else ⟨digits, exponent⟩

end Decimal

/-- The reals that round to a positive number, as numerators over one denominator. The two ends
belong to the interval exactly when the significand is even. -/
structure RoundingInterval where
  low : Nat
  value : Nat
  high : Nat
  den : Nat
  closed : Bool

namespace RoundingInterval

/-- The rounding interval of `m * 2 ^ q`. Below a power of two the gap to the next number is half
as wide as above it. -/
def of (m : Nat) (q : Int) : RoundingInterval :=
  let unit := twoPow q.toNat
  let narrow := m = twoPow 52 ∧ q ≠ -1074
  { low := 4 * m * unit - (if narrow then 1 else 2) * unit
    value := 4 * m * unit
    high := 4 * m * unit + 2 * unit
    den := 4 * twoPow (-q).toNat
    closed := m % 2 == 0 }

/-- Whether the quotient `num / den` lies in the interval. -/
def contains (i : RoundingInterval) (num den : Nat) : Bool :=
  if i.closed then
    decide (i.low * den ≤ num * i.den) && decide (num * i.den ≤ i.high * den)
  else
    decide (i.low * den < num * i.den) && decide (num * i.den < i.high * den)

/-- The exponent `E` with `10 ^ E ≤ value < 10 ^ (E + 1)`. -/
def leading (i : RoundingInterval) : Int :=
  let k : Int := ((Nat.toDigits 10 i.value).length : Int) - (Nat.toDigits 10 i.den).length
  if i.value * tenPow (-k).toNat < i.den * tenPow k.toNat then k - 1 else k

/-- The neighbour with `n` digits that reads back as the value: the nearer one if both do. -/
def neighbour? (i : RoundingInterval) (tie : Tie) (n : Nat) : Option Decimal :=
  let step := i.leading - (n - 1 : Nat)
  -- in units of `10 ^ step` the value is `num / den`, and a grid point `d` is `d`
  let num := i.value * tenPow (-step).toNat
  let den := i.den * tenPow step.toNat
  let below := num / den
  let inside (d : Nat) : Bool := i.contains (d * tenPow step.toNat) (tenPow (-step).toNat)
  let twice := 2 * (num % den)
  let upper : Bool :=
    decide (den < twice) || (twice == den && (tie == .up || below % 2 == 1))
  match inside below, inside (below + 1) with
  | true, true => some (Decimal.stripZeros 20 (if upper then below + 1 else below) step)
  | true, false => some (Decimal.stripZeros 20 below step)
  | false, true => some (Decimal.stripZeros 20 (below + 1) step)
  | false, false => none

end RoundingInterval

/-- The shortest decimal that reads back as `m * 2 ^ q`, for `m` not zero. Seventeen digits always
suffice. -/
def shortestDecimal (tie : Tie) (m : Nat) (q : Int) : Decimal :=
  let i := RoundingInterval.of m q
  ((List.range 17).findSome? fun n => i.neighbour? tie (n + 1)).getD ⟨m, 0⟩

end LiveBinding
