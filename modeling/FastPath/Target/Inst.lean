import FastPath.Stub.Kind
import FastPath.Target.Operand

/-!
# Machine instructions

Instructions that may leave their place all have one form: a `Guard` and a target. A
guard either completes, and control falls through, or trips, and control goes to the
target. A guard that trips writes no register.
-/

namespace FastPath

/-- Number of an inline cache within its code. -/
abbrev CacheId := Nat

/-- What a branching instruction does before it falls through, and when it branches. -/
inductive Guard where
  /-- Branch always. -/
  | always
  /-- Branch if the comparison holds. -/
  | compare (cond : Cond) (lhs rhs : Operand)
  /-- Branch if the masked bits are non-zero, or zero, as asked. -/
  | test (nonZero : Bool) (lhs : Reg) (mask : Operand)
  /-- Branch if the comparison holds. -/
  | compareDouble (cond : DoubleCond) (lhs rhs : FReg)
  /-- Combine `dst` with `src`; branch on signed overflow. -/
  | checked (op : ArithOp) (dst : Reg) (src : Operand)
  /-- Truncate towards zero; branch if the result is no 32-bit integer. -/
  | truncate (src : FReg) (dst : Reg)
  /-- Convert exactly; branch unless the number is a 32-bit integer other than `-0`. -/
  | convert (src : FReg) (dst : Reg)
  /-- Branch if the class of the object equals, or differs from, the given one. -/
  | objectClass (cond : Cond) (obj : Reg) (cls : ObjectClass)
  /-- Branch if the extent of the object compares so to the key. -/
  | extent (extent : Extent) (obj : Reg) (key : IndexKey) (cond : Cond)
  /-- Branch if the element is a hole. -/
  | hole (obj : Reg) (key : IndexKey)
  /-- Read the element; branch if it is a hole. -/
  | loadPacked (obj : Reg) (key : IndexKey) (tag : Option Reg) (payload : Reg)
  /-- Branch if the array prototype has changed since the given epoch. -/
  | epoch (expected : Nat)
deriving DecidableEq, Repr, Inhabited

/-- A machine instruction. -/
inductive Inst where
  | move (dst : Reg) (src : Operand)
  | storeTag (slot : Slot) (src : Operand)
  | storePayload (slot : Slot) (src : Operand)
  | storeValue (slot : Slot) (src : Source)
  | copySlot (dst src : Slot)
  /-- Load a number from a slot as a double, whichever of the two number tags it has. -/
  | loadDouble (dst : FReg) (slot : Slot)
  | moveDoubleImm (dst : FReg) (value : Double)
  | moveDouble (dst src : FReg)
  /-- Read a payload word as the bits of a double. -/
  | moveBitsToDouble (dst : FReg) (src : Reg)
  | int32ToDouble (dst : FReg) (src : Reg)
  | uint32ToDouble (dst : FReg) (src : Reg)
  | aluDouble (op : ArithOp) (dst src : FReg)
  | zeroDouble (dst : FReg)
  | alu (op : AluOp) (dst : Reg) (src : Operand)
  | bitNot (dst : Reg)
  /-- Write one or zero as the comparison holds or not. -/
  | set (cond : Cond) (lhs : Reg) (rhs : Operand) (dst : Reg)
  | setDouble (cond : DoubleCond) (lhs rhs : FReg) (dst : Reg)
  | loadExtent (dst obj : Reg) (extent : Extent)
  | storeExtent (obj : Reg) (extent : Extent) (src : Operand)
  /-- Read an element; the tag is dropped if no register is given for it. -/
  | loadElement (obj : Reg) (key : IndexKey) (tag : Option Reg) (payload : Reg)
  | storeElement (obj : Reg) (key : IndexKey) (value : Source)
  | loadNamed (obj : Reg) (slot : Nat) (tag : Option Reg) (payload : Reg)
  | storeNamed (obj : Reg) (slot : Nat) (value : Source)
  /-- Call a stub at stack pointer `sp`. -/
  | callStub (stub : Stub) (sp : Nat) (arg : Int64)
  /-- Call the generic form of a cached access. -/
  | callCache (cache : CacheId) (sp : Nat) (preserve : RegMask)
  | branch (guard : Guard) (target : Offset)
  | ret (value : Source)
deriving DecidableEq, Repr, Inhabited

namespace Inst

/-- The target of a branch that has not been given one. -/
def unlinked : Offset := 4294967295

/-- Where a branching instruction leads. -/
def target? : Inst → Option Offset
  | branch _ target => some target
  | _ => none

/-- The instruction with its target replaced, if it branches. -/
def retarget? (target : Offset) : Inst → Option Inst
  | branch guard _ => some (branch guard target)
  | _ => none

/-- A branch without target. -/
def isUnlinked (i : Inst) : Bool := i.target? = some unlinked

/-- The instruction calls a stub. -/
def isCall : Inst → Bool
  | callStub _ _ _ | callCache _ _ _ => true
  | _ => false

end Inst

end FastPath
