/-!
# Numbers of the model

A model holds numbers of the format binary64: not-a-number, two infinities and the finite values
`± m * 2 ^ q` with a significand `m` of at most 53 bits. The type keeps sign, significand and
exponent apart, so that equality, order and rounding are exact arithmetic on `Nat` and `Int`.

Every finite value is a whole multiple of `2 ^ -1074`; `Number.scaled?` is that multiple, and
comparison goes through it.

Main statements:

* `Number.equal_comm`: equality of numbers is symmetric;
* `Number.equal_self`: a number equals itself exactly when it is not `nan`;
* `Number.eq_or_zero_of_equal`: equal numbers are the same number, or zeros of two signs.
-/

namespace LiveBinding

/-- Two to the power `k`. -/
abbrev twoPow (k : Nat) : Nat := Nat.pow 2 k

/-- Ten to the power `k`. -/
abbrev tenPow (k : Nat) : Nat := Nat.pow 10 k

/-- The pairs `(m, q)` that stand for a finite value: at most 53 bits, an exponent in range, and
all 53 bits used unless the exponent is the least one. Each value has one such pair. -/
def Canonical (m : Nat) (q : Int) : Prop :=
  m < twoPow 53 ∧ -1074 ≤ q ∧ q ≤ 971 ∧ (twoPow 52 ≤ m ∨ q = -1074)

instance (m : Nat) (q : Int) : Decidable (Canonical m q) := by
  unfold Canonical; infer_instance

/-- A number of the model. -/
inductive Number where
  | nan
  | infinite (negative : Bool)
  | finite (negative : Bool) (m : Nat) (q : Int) (canonical : Canonical m q)
  deriving DecidableEq

namespace Number

/-- Positive zero. -/
def zero : Number := .finite false 0 (-1074) (by decide)

instance : Inhabited Number := ⟨zero⟩

/-- The value `± m * 2 ^ q` if the pair is canonical; larger values are infinite. -/
def ofParts (negative : Bool) (m : Nat) (q : Int) : Number :=
  if h : Canonical m q then .finite negative m q h else .infinite negative

/-- A quotient rounded to the nearest natural number, a half to the even one. -/
def roundHalfEven (num den : Nat) : Nat :=
  let d := num / den
  let r := num % den
  if 2 * r < den then d
  else if den < 2 * r then d + 1
  else if d % 2 = 0 then d else d + 1

/-- The number nearest to `± num / den`, a tie going to the even significand. -/
def ofRatio (negative : Bool) (num den : Nat) : Number :=
  if num = 0 then .finite negative 0 (-1074) (by decide)
  else
    -- `num / den` lies strictly between `2 ^ (k - 1)` and `2 ^ (k + 1)`
    let k : Int := (num.log2 : Int) - (den.log2 : Int)
    let low := decide (num * twoPow (-k).toNat < den * twoPow k.toNat)
    let q := max (-1074) (if low then k - 53 else k - 52)
    let m := roundHalfEven (num * twoPow (-q).toNat) (den * twoPow q.toNat)
    if m = twoPow 53 then ofParts negative (twoPow 52) (q + 1) else ofParts negative m q

/-- The number nearest to an integer. -/
def ofInt (z : Int) : Number := ofRatio (decide (z < 0)) z.natAbs 1

/-- The number nearest to `± digits * 10 ^ exponent`. A decimal whose leading digit stands above
`10 ^ 400` is infinite and one below `10 ^ -400` is zero, so the power is computed only for
exponents of moderate size. -/
def ofDecimal (negative : Bool) (digits : Nat) (exponent : Int) : Number :=
  if digits = 0 then .finite negative 0 (-1074) (by decide)
  else
    let length : Int := ((Nat.toDigits 10 digits).length : Int)
    if exponent + length > 400 then .infinite negative
    else if exponent + length < -400 then .finite negative 0 (-1074) (by decide)
    else ofRatio negative (digits * tenPow exponent.toNat) (tenPow (-exponent).toNat)

/-- A finite value as a multiple of `2 ^ -1074`; `none` for `nan` and the infinities. -/
def scaled? : Number → Option Int
  | .finite negative m q _ =>
    let n : Int := (m * twoPow (q + 1074).toNat : Nat)
    some (if negative then -n else n)
  | _ => none

/-- Equality of numbers: the two zeros are equal, and `nan` equals nothing. -/
def equal : Number → Number → Bool
  | .nan, _ => false
  | _, .nan => false
  | .infinite a, .infinite b => a == b
  | .finite a m q _, .finite b n p _ => (a == b || m == 0) && m == n && q == p
  | _, _ => false

theorem equal_comm (x y : Number) : equal x y = equal y x := by
  cases x <;> cases y <;> simp only [equal]
  · rw [Bool.beq_comm]
  · rename_i a m q _ b n p _
    by_cases h : m = n
    · subst h
      rw [Bool.beq_comm (a := a), Bool.beq_comm (a := q)]
    · have hb : (m == n) = false := by simpa using h
      have hb' : (n == m) = false := by simpa using fun e : n = m => h e.symm
      simp [hb, hb']

theorem equal_self (x : Number) : equal x x = true ↔ x ≠ .nan := by
  cases x <;> simp [equal]

/-- Equal numbers are the same number, or zeros whose signs may differ. -/
theorem eq_or_zero_of_equal {x y : Number} (h : x.equal y = true) :
    x = y ∨ ∃ a b q hx hy, x = .finite a 0 q hx ∧ y = .finite b 0 q hy := by
  cases x with
  | nan => cases h
  | infinite a =>
    cases y with
    | infinite b =>
      obtain rfl : a = b := by simpa [equal] using h
      exact .inl rfl
    | _ => cases h
  | finite a m q hm =>
    cases y with
    | finite b n r hn =>
      obtain ⟨⟨hsign, rfl⟩, rfl⟩ : ((a = b ∨ m = 0) ∧ m = n) ∧ q = r := by
        simpa [equal] using h
      rcases hsign with rfl | rfl
      · exact .inl rfl
      · exact .inr ⟨a, b, q, hm, hn, rfl, rfl⟩
    | _ => cases h

/-- Order of numbers; `nan` is not below anything, and nothing is below `nan`. -/
def less : Number → Number → Bool
  | .nan, _ => false
  | _, .nan => false
  | .infinite a, .infinite b => a && !b
  | .infinite a, .finite .. => a
  | .finite .., .infinite b => !b
  | x@(.finite ..), y@(.finite ..) => decide (x.scaled?.getD 0 < y.scaled?.getD 0)

/-- The number nearest to `x + 1`. -/
def increment : Number → Number
  | .finite negative m q _ =>
    let n : Int := (m * twoPow q.toNat : Nat)
    let unit : Nat := twoPow (-q).toNat
    let sum := (if negative then -n else n) + unit
    ofRatio (decide (sum < 0)) sum.natAbs unit
  | x => x

/-- The integer that a finite number is, if it is one. -/
def toInt? : Number → Option Int
  | .finite negative m q _ =>
    let den := twoPow (-q).toNat
    if m % den = 0 then
      let n : Int := (m * twoPow q.toNat / den : Nat)
      some (if negative then -n else n)
    else none
  | _ => none

/-- The integer that a number is, if it is one of magnitude below `2 ^ 53`. In this range every
integer is a number, and its decimal text is exact. -/
def smallInt? (x : Number) : Option Int :=
  x.toInt?.filter fun n => decide (n.natAbs < twoPow 53)

end Number

end LiveBinding
