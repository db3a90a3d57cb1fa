import FastPath.Generic.Arith
import FastPath.Generic.Compare
import FastPath.Target.Register

/-!
# Operands and conditions

What machine instructions read and what they test. Integer operations look at the low
half of a word; a comparison of doubles says what it answers when an operand is NaN.
-/

namespace FastPath

/-- A frame slot: arguments come first, then locals, then the operand stack. -/
abbrev Slot := Nat

/-- A position in finished code. -/
abbrev Offset := Nat

/-! ### Sources -/

/-- A word that an instruction reads. -/
inductive Operand where
  | reg (r : Reg)
  | imm (n : Int64)
  /-- The tag word of a frame slot. -/
  | tag (slot : Slot)
  /-- The payload word of a frame slot. -/
  | payload (slot : Slot)
deriving DecidableEq, Repr, Inhabited

/-- The immediate that is a tag word. -/
def Operand.ofTag (t : Tag) : Operand := .imm t.word.toInt64

/-- A whole value that an instruction reads. -/
inductive Source where
  | constant (c : Cell)
  /-- A known tag and a payload register. -/
  | typed (tag : Tag) (payload : Reg)
  /-- A tag register and a payload register. -/
  | regs (tag payload : Reg)
  /-- A number in a double register. -/
  | double (r : FReg)
deriving DecidableEq, Repr, Inhabited

/-- An element index that is known to be a 32-bit integer. -/
inductive IndexKey where
  | constant (i : Int32)
  | reg (r : Reg)
deriving DecidableEq, Repr, Inhabited

/-! ### Conditions -/

namespace RelOp

/-- The relation that holds exactly when this one does not, on a total order. -/
def invert : RelOp → RelOp
  | lt => ge
  | le => gt
  | gt => le
  | ge => lt

/-- The relation with its operands exchanged. -/
def swap : RelOp → RelOp
  | lt => gt
  | le => ge
  | gt => lt
  | ge => le

/-- The relation on natural numbers. -/
def onNat : RelOp → Nat → Nat → Bool
  | lt, a, b => a < b
  | le, a, b => a ≤ b
  | gt, a, b => b < a
  | ge, a, b => b ≤ a

/-- The relation on integers. -/
def onInt : RelOp → Int → Int → Bool
  | lt, a, b => a < b
  | le, a, b => a ≤ b
  | gt, a, b => b < a
  | ge, a, b => b ≤ a

end RelOp

/-- A comparison of the low halves of two words. -/
inductive Cond where
  | equal
  | notEqual
  | signed (op : RelOp)
  | unsigned (op : RelOp)
deriving DecidableEq, Repr, Inhabited

namespace Cond

/-- Evaluate a condition. -/
def eval (c : Cond) (a b : UInt64) : Bool :=
  let x := a.toUInt32
  let y := b.toUInt32
  match c with
  | equal => x == y
  | notEqual => x != y
  | signed op => op.onInt x.toInt32.toInt y.toInt32.toInt
  | unsigned op => op.onNat x.toNat y.toNat

/-- The condition that holds exactly when this one does not. -/
def invert : Cond → Cond
  | equal => notEqual
  | notEqual => equal
  | signed op => signed op.invert
  | unsigned op => unsigned op.invert

/-- The condition with its operands exchanged. -/
def swap : Cond → Cond
  | equal => equal
  | notEqual => notEqual
  | signed op => signed op.swap
  | unsigned op => unsigned op.swap

/-- Every condition. -/
def all : List Cond :=
  [equal, notEqual, signed .lt, signed .le, signed .gt, signed .ge,
   unsigned .lt, unsigned .le, unsigned .gt, unsigned .ge]

/-- The name of a condition. -/
def name : Cond → String
  | equal => "Equal"
  | notEqual => "NotEqual"
  | signed .lt => "LessThan"
  | signed .le => "LessThanOrEqual"
  | signed .gt => "GreaterThan"
  | signed .ge => "GreaterThanOrEqual"
  | unsigned .lt => "Below"
  | unsigned .le => "BelowOrEqual"
  | unsigned .gt => "Above"
  | unsigned .ge => "AboveOrEqual"

end Cond

/-- What a comparison of two ordered doubles asks. -/
inductive DoubleRel where
  | equal
  | notEqual
  | order (op : RelOp)
deriving DecidableEq, Repr, Inhabited

namespace DoubleRel

/-- Evaluate on two doubles of which neither is NaN. -/
def eval : DoubleRel → Double → Double → Bool
  | equal, a, b => a.eq b
  | notEqual, a, b => !a.eq b
  | order op, a, b => op.onDoubles a b

/-- The comparison that holds exactly when this one does not. -/
def invert : DoubleRel → DoubleRel
  | equal => notEqual
  | notEqual => equal
  | order op => order op.invert

end DoubleRel

/-- A comparison of doubles, and what it answers if an operand is NaN. -/
structure DoubleCond where
  rel : DoubleRel
  orUnordered : Bool
deriving DecidableEq, Repr, Inhabited

namespace DoubleCond

/-- Evaluate a condition. -/
def eval (c : DoubleCond) (a b : Double) : Bool :=
  if Double.unordered a b then c.orUnordered else c.rel.eval a b

/-- The condition that holds exactly when this one does not, NaN included. -/
def invert (c : DoubleCond) : DoubleCond := ⟨c.rel.invert, !c.orUnordered⟩

end DoubleCond

/-! ### Integer operations -/

/-- A 32-bit operation; sums and differences wrap. -/
inductive AluOp where
  | arith (op : ArithOp)
  | bit (op : BitOp)
deriving DecidableEq, Repr, Inhabited

/-- Apply a 32-bit operation. Shift amounts use their low five bits. -/
def AluOp.apply : AluOp → UInt32 → UInt32 → UInt32
  | arith .add, a, b => a + b
  | arith .sub, a, b => a - b
  | bit .or, a, b => a ||| b
  | bit .and, a, b => a &&& b
  | bit .xor, a, b => a ^^^ b
  | bit .lsh, a, b => a <<< (b &&& 31)
  | bit .rsh, a, b => (a.toInt32 >>> (b &&& 31).toInt32).toUInt32
  | bit .ursh, a, b => a >>> (b &&& 31)

end FastPath
