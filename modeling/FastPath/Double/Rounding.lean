import FastPath.Double.Basic

/-!
# Rounding to binary64

`Double.round` takes an exact non-negative rational to the nearest binary64 number, ties
to the even significand. Sums and differences are computed exactly and rounded once, and
every conversion from integers or decimals is an instance of the same rounding.

The conversions to 32-bit integers go the other way: a finite number is truncated to an
integer, which is then taken modulo `2 ^ 32` or refused when it is out of range.
-/

namespace FastPath

namespace Double

/-! ### From exact values -/

/-- `num / den` rounded to an integer, a half to the even neighbour. -/
def roundDiv (num den : Nat) : Nat :=
  let q := num / den
  let r := num % den
  if 2 * r < den then q
  else if den < 2 * r then q + 1
  else q + q % 2

/-- `num / den` scaled by `2 ^ (-e)`, as a numerator and a denominator. -/
def scaled (num den : Nat) (e : Int) : Nat × Nat :=
  (num * twoPow (-e).toNat, den * twoPow e.toNat)

/-- The exponent at which `num / den` has a significand of 53 bits, but never below the
exponent of the subnormal numbers. -/
def roundingExponent (num den : Nat) : Int :=
  let e : Int := (num.log2 : Int) - den.log2 - 53
  let (n, d) := scaled num den e
  max (if 2 * implicitBit ≤ n / d then e + 1 else e) (-1074)

/-- The binary64 number nearest to `num / den`, with the given sign. The magnitude is
the rounded significand plus the exponent in units of the implicit bit, so a carry out of
the significand lands in the exponent by itself. -/
def round (negative : Bool) (num den : Nat) : Double :=
  if num = 0 then ofMagnitude negative 0
  else
    let e := roundingExponent num den
    let (n, d) := scaled num den e
    let m := (e + 1074).toNat * implicitBit + roundDiv n d
    ofMagnitude negative (min m infinityMagnitude)

/-- The number nearest to an integer. -/
def ofInt (n : Int) : Double := round (n < 0) n.natAbs 1

/-- The number nearest to a natural number. -/
def ofNat (n : Nat) : Double := round false n 1

/-- A 32-bit integer as a number; every one is representable. -/
def ofInt32 (i : Int32) : Double := ofInt i.toInt

/-- `10 ^ n`. -/
def tenPow (n : Nat) : Nat := Nat.pow 10 n

/-- Number of decimal digits of `n`, and one for zero. -/
def digitCount (n : Nat) : Nat := (Nat.toDigits 10 n).length

/-- The number nearest to `digits · 10 ^ exp`. Exponents far outside the range are
settled by the position of the leading digit alone. -/
def ofDecimal (negative : Bool) (digits : Nat) (exp : Int) : Double :=
  if digits = 0 then ofMagnitude negative 0
  else
    let lead : Int := digitCount digits + exp
    if 400 < lead then infinity negative
    else if lead < -400 then ofMagnitude negative 0
    else round negative (digits * tenPow exp.toNat) (tenPow (-exp).toNat)

/-! ### Sums -/

/-- The exact sum of two finite numbers, in units of `2 ^ e`. -/
def exactSum (a b : Double) (e : Int) : Int :=
  a.signedMantissa * twoPow (a.exponent - e).toNat +
    b.signedMantissa * twoPow (b.exponent - e).toNat

/-- The rounded sum of two finite numbers. An exact cancellation is `+0`, except that
two negative zeros stay negative. -/
def addFinite (a b : Double) : Double :=
  let e := min a.exponent b.exponent
  let s := exactSum a b e
  if s = 0 then ofMagnitude (a.negative && b.negative) 0
  else round (s < 0) (s.natAbs * twoPow e.toNat) (twoPow (-e).toNat)

/-- Addition. A NaN operand is passed on; opposite infinities have no sum. -/
def add (a b : Double) : Double :=
  if a.isNaN then a.quiet
  else if b.isNaN then b.quiet
  else if a.isInfinite then
    if b.isInfinite && a.negative != b.negative then invalid else a
  else if b.isInfinite then b
  else addFinite a b

/-- Subtraction: adding the negation, except that a NaN keeps its sign. -/
def sub (a b : Double) : Double :=
  if b.isNaN then (if a.isNaN then a.quiet else b.quiet) else add a b.neg

/-! ### To 32-bit integers -/

/-- The integer part modulo `2 ^ 32`; numbers that are not finite give `0`. -/
def toInt32 (d : Double) : Int32 :=
  if d.isFinite then Int32.ofInt d.truncate else 0

/-- `toInt32` read as an unsigned integer. -/
def toUInt32 (d : Double) : UInt32 := d.toInt32.toUInt32

/-- An integer as a 32-bit integer, if it is in range. -/
def int32? (n : Int) : Option Int32 :=
  if -0x80000000 ≤ n ∧ n < 0x80000000 then some (Int32.ofInt n) else none

/-- The truncated number as a 32-bit integer, if it is in range. -/
def truncateInt32? (d : Double) : Option Int32 :=
  if d.isFinite then int32? d.truncate else none

/-- The 32-bit integer that the number is exactly; `-0` is none. -/
def exactInt32? (d : Double) : Option Int32 :=
  if d.isIntegral && !d.isNegativeZero then int32? d.truncate else none

end Double

end FastPath
