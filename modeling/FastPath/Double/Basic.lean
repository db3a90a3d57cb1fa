/-!
# Binary64 numbers

A `Double` is the 64-bit pattern of an IEEE 754 binary64 number. Everything about it is
said in exact integer arithmetic on that pattern: a finite number is
`± mantissa · 2 ^ exponent`, and two numbers are compared through an integer key that
orders the patterns the way the numbers are ordered.

Equality of the type is equality of bits, so it tells `+0` from `-0` and one NaN from
another. The numeric comparisons are `Double.eq`, `Double.lt` and `Double.le`; a NaN
satisfies none of them.
-/

namespace FastPath

/-- A binary64 number, given by its bit pattern. -/
structure Double where
  bits : UInt64
deriving DecidableEq, Hashable, Inhabited, Repr

namespace Double

/-! ### Fields of the pattern -/

/-- `2 ^ n`. -/
def twoPow (n : Nat) : Nat := Nat.pow 2 n

/-- The place of the sign bit. -/
def signPlace : Nat := twoPow 63

/-- The place of the lowest exponent bit, which is also the implicit bit of a
significand. -/
def implicitBit : Nat := twoPow 52

/-- The sign bit. -/
def negative (d : Double) : Bool := signPlace ≤ d.bits.toNat

/-- The pattern without its sign bit. -/
def magnitude (d : Double) : Nat := d.bits.toNat % signPlace

/-- The exponent field. -/
def biased (d : Double) : Nat := d.magnitude / implicitBit

/-- The fraction field. -/
def fraction (d : Double) : Nat := d.magnitude % implicitBit

/-- Magnitude of the infinities; larger magnitudes are NaNs. -/
def infinityMagnitude : Nat := 2047 * implicitBit

/-- The number with the given sign and magnitude. -/
def ofMagnitude (negative : Bool) (magnitude : Nat) : Double :=
  ⟨UInt64.ofNat ((if negative then signPlace else 0) + magnitude)⟩

/-! ### Classes -/

/-- Not a number. -/
def isNaN (d : Double) : Bool := infinityMagnitude < d.magnitude

/-- One of the two infinities. -/
def isInfinite (d : Double) : Bool := d.magnitude = infinityMagnitude

/-- Neither infinite nor NaN. -/
def isFinite (d : Double) : Bool := d.magnitude < infinityMagnitude

/-- One of the two zeros. -/
def isZero (d : Double) : Bool := d.magnitude = 0

/-- The zero with a negative sign. -/
def isNegativeZero (d : Double) : Bool := d.negative && d.isZero

/-! ### Constants -/

/-- Positive zero. -/
def zero : Double := ⟨0⟩

/-- The quiet NaN that conversions produce. -/
def nan : Double := ⟨0x7ff8000000000000⟩

/-- The NaN an arithmetic operation produces when it has no NaN operand. -/
def invalid : Double := ⟨0xfff8000000000000⟩

/-- The infinity of the given sign. -/
def infinity (negative : Bool) : Double := ofMagnitude negative infinityMagnitude

/-- `2 ^ 32`, the modulus of 32-bit conversions. -/
def twoPow32 : Double := ⟨0x41f0000000000000⟩

/-! ### Sign -/

/-- The number with its sign bit flipped. -/
def neg (d : Double) : Double := ⟨d.bits ^^^ 0x8000000000000000⟩

/-- A NaN with its quiet bit set. -/
def quiet (d : Double) : Double := ⟨d.bits ||| 0x0008000000000000⟩

/-! ### Exact value of a finite number -/

/-- The significand: the number is `± mantissa · 2 ^ exponent`. -/
def mantissa (d : Double) : Nat :=
  if d.biased = 0 then d.fraction else implicitBit + d.fraction

/-- The exponent that belongs to `mantissa`. -/
def exponent (d : Double) : Int := (max d.biased 1 : Nat) - 1075

/-- The significand with its sign. -/
def signedMantissa (d : Double) : Int :=
  if d.negative then -(d.mantissa : Int) else d.mantissa

/-- The integer a finite number truncates to. -/
def truncate (d : Double) : Int :=
  let whole := if 0 ≤ d.exponent then d.mantissa * twoPow d.exponent.toNat
    else d.mantissa / twoPow (-d.exponent).toNat
  if d.negative then -(whole : Int) else whole

/-- A finite number without fractional part. -/
def isIntegral (d : Double) : Bool :=
  d.isFinite && (0 ≤ d.exponent || d.mantissa % twoPow (-d.exponent).toNat = 0)

/-! ### Numeric order -/

/-- An integer that orders numbers the way their values are ordered; both zeros have
key `0`. -/
def key (d : Double) : Int := if d.negative then -(d.magnitude : Int) else d.magnitude

/-- At least one operand is NaN, so no comparison holds. -/
def unordered (a b : Double) : Bool := a.isNaN || b.isNaN

/-- Numeric equality. -/
def eq (a b : Double) : Bool := !unordered a b && a.key == b.key

/-- Numeric `<`. -/
def lt (a b : Double) : Bool := !unordered a b && a.key < b.key

/-- Numeric `≤`. -/
def le (a b : Double) : Bool := !unordered a b && a.key ≤ b.key

/-- NaN equals NaN, and otherwise value and sign agree. -/
def same (a b : Double) : Bool :=
  (a.isNaN && b.isNaN) || (a.eq b && a.negative == b.negative)

end Double

end FastPath
