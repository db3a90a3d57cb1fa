/-!
# Machine registers

The target has eight general registers of 64 bits and four registers for doubles. The
first general register carries the word a stub returns; the last double register is a
scratch register of out-of-line code that the allocator never hands out.

Register numbers are not bounded by their type: code may be assembled by hand, and naming
a register that does not exist is a fault the machine reports.
-/

namespace FastPath

/-- A general register. -/
structure Reg where
  index : Nat
deriving DecidableEq, Hashable, Repr, Inhabited

/-- A double register. -/
structure FReg where
  index : Nat
deriving DecidableEq, Hashable, Repr, Inhabited

namespace Reg

/-- Number of general registers. -/
def count : Nat := 8

/-- The register that holds the word a stub returns. -/
def result : Reg := ⟨0⟩

/-- The name of a register. -/
def name (r : Reg) : String :=
  let i := r.index
  s!"r{i}"

end Reg

namespace FReg

/-- Number of double registers. -/
def count : Nat := 4

/-- Number of double registers that are handed out. -/
def allocatable : Nat := 3

/-- The scratch register of out-of-line conversions. -/
def scratch : FReg := ⟨3⟩

/-- The name of a register. -/
def name (r : FReg) : String :=
  let i := r.index
  s!"f{i}"

end FReg

/-- A set of registers: the low eight bits are general registers, the next four double
registers. -/
structure RegMask where
  bits : UInt16
deriving DecidableEq, Hashable, Repr, Inhabited

namespace RegMask

/-- No register. -/
def empty : RegMask := ⟨0⟩

/-- One general register. -/
def ofReg (r : Reg) : RegMask := ⟨UInt16.ofNat (1 <<< r.index)⟩

/-- One double register. -/
def ofFReg (r : FReg) : RegMask := ⟨UInt16.ofNat (1 <<< (Reg.count + r.index))⟩

/-- Union. -/
def union (a b : RegMask) : RegMask := ⟨a.bits ||| b.bits⟩

/-- The set of the listed registers. -/
def ofLists (regs : List Reg) (fregs : List FReg) : RegMask :=
  (regs.map ofReg ++ fregs.map ofFReg).foldl union empty

/-- Membership of a general register. -/
def hasReg (m : RegMask) (r : Reg) : Bool := m.bits.toNat.testBit r.index

/-- Membership of a double register. -/
def hasFReg (m : RegMask) (r : FReg) : Bool := m.bits.toNat.testBit (Reg.count + r.index)

end RegMask

end FastPath
