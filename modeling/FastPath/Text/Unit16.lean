/-!
# UTF-16 code units

String positions, lengths and the order of strings are counted in UTF-16 code units: a
character outside the basic plane is two units, a high and a low surrogate.
-/

namespace FastPath.Text

/-- The code units of one character. -/
def charUnits (c : Char) : List UInt16 :=
  let n := c.toNat
  if n < 0x10000 then [UInt16.ofNat n]
  else
    let m := n - 0x10000
    [UInt16.ofNat (0xD800 + m / 0x400), UInt16.ofNat (0xDC00 + m % 0x400)]

/-- The code units of a string. -/
def units (s : String) : List UInt16 := s.toList.flatMap charUnits

/-- Number of code units of a string. -/
def unitLength (s : String) : Nat := (units s).length

/-- The text of a single code unit; a surrogate has none of its own and is replaced. -/
def unitText (u : UInt16) : String :=
  let n := u.toNat
  if 0xD800 ≤ n ∧ n ≤ 0xDFFF then String.singleton (Char.ofNat 0xFFFD)
  else String.singleton (Char.ofNat n)

/-- Lexicographic order of two lists of code units. -/
def compareUnits : List UInt16 → List UInt16 → Ordering
  | [], [] => .eq
  | [], _ :: _ => .lt
  | _ :: _, [] => .gt
  | a :: as, b :: bs => if a < b then .lt else if b < a then .gt else compareUnits as bs

/-- Order of two strings by their code units. -/
def compareText (s t : String) : Ordering := compareUnits (units s) (units t)

end FastPath.Text
