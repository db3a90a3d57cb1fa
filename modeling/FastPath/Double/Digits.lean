import FastPath.Double.Rounding

/-!
# Shortest decimal digits

The digits of a finite non-zero number are the fewest that still read back as that
number, and among those the ones nearest to it. The search is exact: for one digit, two
digits and so on it looks at the two neighbours of the value on the decimal grid and
takes the first grid that has one inside the interval of reals which round to the number.
Of two such neighbours the nearer wins, and the upper one when they are equally near.

Seventeen digits always suffice, so the search is bounded.
-/

namespace FastPath

/-- A positive decimal `digits · 10 ^ exp`. -/
structure Decimal where
  digits : Nat
  exp : Int
deriving DecidableEq, Repr, Inhabited

namespace Decimal

/-- Drop trailing zeros of the digits, at most `fuel` of them. -/
def strip : (fuel : Nat) → Decimal → Decimal
  | 0, d => d
  | fuel + 1, d =>
    if d.digits % 10 = 0 ∧ d.digits ≠ 0 then strip fuel ⟨d.digits / 10, d.exp + 1⟩ else d

/-- The digits as text. -/
def text (d : Decimal) : String := String.ofList (Nat.toDigits 10 d.digits)

/-- Power of ten of the leading digit. -/
def leading (d : Decimal) : Int := d.exp + (Double.digitCount d.digits : Int) - 1

end Decimal

namespace Double

/-- The interval of reals that round to a positive finite number, and the number itself,
as integers in units of `2 ^ (exponent - 2)`: lower end, value, upper end. Below a power of
two the neighbours are closer than above it. -/
def roundingInterval (d : Double) : Nat × Nat × Nat :=
  let m := 4 * d.mantissa
  (if d.fraction = 0 ∧ 1 < d.biased then m - 1 else m - 2, m, m + 2)

/-- A fraction `num / den` of natural numbers. -/
structure Fraction where
  num : Nat
  den : Nat

/-- `m · 2 ^ e / 10 ^ g`. -/
def onGrid (m : Nat) (e g : Int) : Fraction :=
  ⟨m * twoPow e.toNat * tenPow (-g).toNat, twoPow (-e).toNat * tenPow g.toNat⟩

/-- The neighbour of the value on the grid `10 ^ g` that reads back, if there is one. -/
def neighbour? (d : Double) (g : Int) : Option Nat :=
  let (lo, mid, hi) := d.roundingInterval
  let e := d.exponent - 2
  let v := onGrid mid e g
  let low := onGrid lo e g
  let high := onGrid hi e g
  let closed := d.mantissa % 2 = 0
  let floor := v.num / v.den
  let down := if closed then low.num ≤ floor * low.den else low.num < floor * low.den
  let up := if closed then (floor + 1) * high.den ≤ high.num else (floor + 1) * high.den < high.num
  let upNearer := v.den ≤ 2 * (v.num - floor * v.den)
  match decide down, decide up with
  | true, true => some (if upNearer then floor + 1 else floor)
  | true, false => some floor
  | false, true => some (floor + 1)
  | false, false => none

/-- The power of ten of the leading digit of a positive finite number: the largest `p` with
`10 ^ p` at most the number. The binary exponent gives it up to one. -/
def leadingPower (d : Double) : Int :=
  let binary : Int := (d.mantissa.log2 : Int) + d.exponent
  let guess := Int.fdiv (binary * 30103) 100000
  let reaches (p : Int) : Bool :=
    let f := onGrid d.mantissa d.exponent p
    f.den ≤ f.num
  if reaches (guess + 1) then guess + 1 else if reaches guess then guess else guess - 1

/-- Try `n` digits, then one more, and so on while `fuel` lasts. -/
def searchDigits (d : Double) (p : Int) : (fuel : Nat) → (n : Nat) → Decimal
  | 0, _ => ⟨0, 0⟩
  | fuel + 1, n =>
    let g := p - (n : Int) + 1
    match d.neighbour? g with
    | some k => Decimal.strip 20 ⟨k, g⟩
    | none => searchDigits d p fuel (n + 1)

/-- The shortest decimal that reads back as the magnitude of a finite non-zero number,
without trailing zeros. -/
def shortest (d : Double) : Decimal := searchDigits d d.leadingPower 18 1

end Double

end FastPath
