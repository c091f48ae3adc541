import LiveBinding.Number.Shortest

/-!
# Texts of numbers

A `Layout` holds the decisions of one number format; `Number.text` writes a number in it, always
with its shortest digits.
-/

namespace LiveBinding

/-- The decisions of a number format. A number whose first digit has an exponent from `lowest` to
`highest` is written positionally, any other one with an exponent. -/
structure Layout where
  lowest : Int
  highest : Int
  /-- Whether an integral positional text ends in `.0`. -/
  pointZero : Bool
  /-- Whether a positive exponent is written with a sign. -/
  plus : Bool
  /-- Whether negative zero keeps its sign. -/
  signedZero : Bool
  tie : Tie
  nan : String
  infinity : String
  deriving DecidableEq, Repr

namespace Layout

/-- The digits of a decimal with a point at the place that the exponent gives. -/
def positional (l : Layout) (d : Decimal) : List Char :=
  let ds := d.digitChars
  let fraction := if l.pointZero then ['.', '0'] else []
  if 0 ≤ d.exponent then ds ++ List.replicate d.exponent.toNat '0' ++ fraction
  else
    let places := (-d.exponent).toNat
    if places < ds.length then ds.take (ds.length - places) ++ '.' :: ds.drop (ds.length - places)
    else '0' :: '.' :: List.replicate (places - ds.length) '0' ++ ds

/-- One digit, the others after a point, and the exponent. -/
def scientific (l : Layout) (d : Decimal) : List Char :=
  let mantissa := match d.digitChars with
    | first :: second :: rest => first :: '.' :: second :: rest
    | ds => ds
  let sign := if d.leading < 0 then ['-'] else if l.plus then ['+'] else []
  mantissa ++ 'e' :: sign ++ Nat.toDigits 10 d.leading.natAbs

/-- The text of a positive decimal. -/
def decimal (l : Layout) (d : Decimal) : List Char :=
  if l.lowest ≤ d.leading ∧ d.leading ≤ l.highest then l.positional d else l.scientific d

end Layout

/-- The text of a number in a layout. -/
def Number.text (l : Layout) : Number → String
  | .nan => l.nan
  | .infinite negative => (if negative then "-" else "") ++ l.infinity
  | .finite negative m q _ =>
    let digits := if m = 0 then '0' :: (if l.pointZero then ['.', '0'] else [])
      else l.decimal (shortestDecimal l.tie m q)
    let signed := negative && (l.signedZero || decide (m ≠ 0))
    String.ofList (if signed then '-' :: digits else digits)

end LiveBinding
