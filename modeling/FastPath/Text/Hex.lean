import FastPath.Text.Numeral

/-!
# Hexadecimal text

Bytes and words as lower-case hexadecimal digits of fixed width.
-/

namespace FastPath.Hex

/-- A byte as two digits. -/
def ofByte (b : UInt8) : String :=
  String.ofList [Nat.digitChar (b.toNat / 16), Nat.digitChar (b.toNat % 16)]

/-- Bytes, two digits each. -/
def ofBytes (bs : List UInt8) : String := String.join (bs.map ofByte)

/-- Read pairs of digits; an odd digit at the end is dropped. -/
def readBytes : List Char → Option (List UInt8)
  | a :: b :: cs => do
    let n ← Numeral.digitsValue? 16 [a, b]
    return UInt8.ofNat n :: (← readBytes cs)
  | _ => some []

/-- A word as sixteen digits. -/
def ofWord (w : UInt64) : String :=
  let digits := Nat.toDigits 16 w.toNat
  String.ofList (List.replicate (16 - digits.length) '0' ++ digits)

/-- Read a word. -/
def readWord (s : String) : Option UInt64 :=
  (Numeral.digitsValue? 16 s.toList).map UInt64.ofNat

/-- A number by its bit pattern. All NaNs are written alike, since which one an operation
produces is no part of its result. -/
def ofDouble (d : Double) : String := if d.isNaN then "nan" else ofWord d.bits

/-- Read a number. -/
def readDouble (s : String) : Option Double :=
  if s = "nan" then some .nan else (readWord s).map Double.mk

end FastPath.Hex
