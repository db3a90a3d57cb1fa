import FastPath.Double.Digits
import FastPath.Text.Blank

/-!
# Numerals

The text of numbers, in both directions.

Reading (`Numeral.read`) is total: text that is no numeral reads as NaN and blank text as
zero. Besides decimal numerals there are three radix forms and the word `Infinity`.
Writing (`Numeral.write`) gives the shortest digits that read back, positional while the
leading digit stands between `10 ^ -6` and `10 ^ 20` and in scientific notation outside.

An array index is written one way only: the canonical decimal numeral of a number below
`2 ^ 32 - 1` (`Numeral.index?`).
-/

namespace FastPath.Numeral

/-! ### Digits -/

/-- The value of a digit of the given radix, in either letter case. -/
def digit? (radix : Nat) (c : Char) : Option Nat :=
  let v :=
    if '0' ≤ c ∧ c ≤ '9' then c.toNat - '0'.toNat
    else if 'a' ≤ c ∧ c ≤ 'z' then c.toNat - 'a'.toNat + 10
    else if 'A' ≤ c ∧ c ≤ 'Z' then c.toNat - 'A'.toNat + 10
    else radix
  if v < radix then some v else none

/-- The value of a string of digits, most significant first. -/
def digitsValue? (radix : Nat) (cs : List Char) : Option Nat :=
  cs.foldlM (fun n c => (digit? radix c).map (n * radix + ·)) 0

/-- The value of a string of decimal digits. -/
def decimalValue (cs : List Char) : Nat :=
  cs.foldl (fun n c => n * 10 + (c.toNat - '0'.toNat)) 0

/-- Canonical decimal numeral of a natural number. -/
def ofNat (n : Nat) : String := String.ofList (Nat.toDigits 10 n)

/-- Decimal numeral of an integer. -/
def ofInt (n : Int) : String :=
  if n < 0 then "-" ++ ofNat n.natAbs else ofNat n.natAbs

/-! ### Reading -/

/-- A sign in front of a numeral, and the rest. -/
def sign : List Char → Bool × List Char
  | '-' :: cs => (true, cs)
  | '+' :: cs => (false, cs)
  | cs => (false, cs)

/-- The digits after a radix mark: at least one, with at most one plus sign in front, and
a value below `2 ^ 64`. Anything else is NaN. -/
def readRadix (radix : Nat) (cs : List Char) : Double :=
  let digits := match cs with
    | '+' :: rest => rest
    | _ => cs
  if digits.isEmpty then Double.nan
  else match digitsValue? radix digits with
    | some n => if n < UInt64.size then Double.ofNat n else Double.nan
    | none => Double.nan

/-- The value of the digits of an exponent. Once it has reached `2 ^ 16`, further digits
are ignored. -/
def exponentValue (cs : List Char) : Nat :=
  cs.foldl (fun n c => if n < 0x10000 then n * 10 + (c.toNat - '0'.toNat) else n) 0

/-- An exponent part: the letter, an optional sign and at least one digit. No exponent
part is the exponent zero. -/
def readExponent? : List Char → Option Int
  | [] => some 0
  | c :: cs =>
    if c = 'e' ∨ c = 'E' then
      let (negative, ds) := sign cs
      if ds.isEmpty || !ds.all Char.isDigit then none
      else some (if negative then -(exponentValue ds : Int) else exponentValue ds)
    else none

/-- A decimal numeral: sign, digits with an optional point, optional exponent part. -/
def readDecimal? (cs : List Char) : Option Double :=
  let (negative, cs) := sign cs
  let whole := cs.takeWhile Char.isDigit
  let rest := cs.dropWhile Char.isDigit
  let (part, rest) := match rest with
    | '.' :: r => (r.takeWhile Char.isDigit, r.dropWhile Char.isDigit)
    | _ => ([], rest)
  if whole.isEmpty && part.isEmpty then none
  else (readExponent? rest).map fun e =>
    Double.ofDecimal negative (decimalValue (whole ++ part)) (e - (part.length : Int))

/-- The number a trimmed text denotes. -/
def readTrimmed : List Char → Double
  | [] => Double.zero
  | '0' :: 'x' :: cs | '0' :: 'X' :: cs => readRadix 16 cs
  | '0' :: 'o' :: cs | '0' :: 'O' :: cs => readRadix 8 cs
  | '0' :: 'b' :: cs | '0' :: 'B' :: cs => readRadix 2 cs
  | cs =>
    if cs = "Infinity".toList ∨ cs = "+Infinity".toList then Double.infinity false
    else if cs = "-Infinity".toList then Double.infinity true
    else (readDecimal? cs).getD Double.nan

/-- The number a text denotes, white space around it ignored. -/
def read (s : String) : Double := readTrimmed (Text.trim s.toList)

/-! ### Writing -/

/-- Positional notation of a decimal. -/
def positional (d : Decimal) : String :=
  let ds := d.text.toList
  let zeros (n : Nat) : List Char := List.replicate n '0'
  let point : Int := (ds.length : Int) + d.exp
  String.ofList <|
    if 0 ≤ d.exp then ds ++ zeros d.exp.toNat
    else if 0 < point then ds.take point.toNat ++ '.' :: ds.drop point.toNat
    else '0' :: '.' :: zeros (-point).toNat ++ ds

/-- Scientific notation of a decimal: one digit before the point, and an exponent that
always carries its sign. -/
def scientific (d : Decimal) : String :=
  let e := d.leading
  let mantissa := match d.text.toList with
    | c :: c' :: cs => c :: '.' :: c' :: cs
    | cs => cs
  String.ofList mantissa ++ (if e < 0 then "e-" else "e+") ++ ofNat e.natAbs

/-- The shortest text of a number. Both zeros are written alike. -/
def write (d : Double) : String :=
  if d.isNaN then "NaN"
  else if d.isZero then "0"
  else
    let body :=
      if d.isInfinite then "Infinity"
      else
        let s := d.shortest
        if -6 ≤ s.leading ∧ s.leading ≤ 20 then positional s else scientific s
    if d.negative then "-" ++ body else body

/-! ### Array indices -/

/-- The array index a text spells: the canonical numeral of a number below
`2 ^ 32 - 1`. -/
def index? (s : String) : Option Nat :=
  let cs := s.toList
  if cs.isEmpty || !cs.all Char.isDigit then none
  else
    let n := decimalValue cs
    if n < UInt32.size - 1 ∧ ofNat n = s then some n else none

end FastPath.Numeral
