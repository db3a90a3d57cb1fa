import FastPath.Generic.Convert

/-!
# Arithmetic

The additive and bitwise operators on any values. Two 32-bit integers are added as
integers and only leave that representation when the result does not fit.
-/

namespace FastPath

/-- Apply a bitwise operator to converted operands. Shift amounts use their low five
bits, and the unsigned shift may leave the range of 32-bit integers. -/
def BitOp.apply (op : BitOp) (a b : Int32) : Value :=
  let amount := b.toUInt32 &&& 31
  match op with
  | .or => .int32 (a ||| b)
  | .and => .int32 (a &&& b)
  | .xor => .int32 (a ^^^ b)
  | .lsh => .int32 (a.toUInt32 <<< amount).toInt32
  | .rsh => .int32 (a >>> amount.toInt32)
  | .ursh => .number (Double.ofNat (a.toUInt32 >>> amount).toNat)

/-- The sum of two 32-bit integers, if it fits. -/
def checkedAdd (a b : Int32) : Option Int32 := Double.int32? (a.toInt + b.toInt)

/-- The difference of two 32-bit integers, if it fits. -/
def checkedSub (a b : Int32) : Option Int32 := Double.int32? (a.toInt - b.toInt)

/-- Apply an additive operator to numbers. -/
def ArithOp.onDoubles : ArithOp → Double → Double → Double
  | .add => Double.add
  | .sub => Double.sub

/-- Apply an additive operator to 32-bit integers, if the result fits. -/
def ArithOp.onInt32s : ArithOp → Int32 → Int32 → Option Int32
  | .add => checkedAdd
  | .sub => checkedSub

/-- An additive operator on two 32-bit integers. -/
def arithInt32 (op : ArithOp) (a b : Int32) : Value :=
  match op.onInt32s a b with
  | some i => .int32 i
  | none => .double (op.onDoubles (Double.ofInt32 a) (Double.ofInt32 b))

/-- Addition of primitives: concatenation if either is a string. -/
def addPrimitives (a b : Value) : HeapM Value := do
  if a.tag = .string ∨ b.tag = .string then
    let s ← HeapM.look (·.toText a)
    let t ← HeapM.look (·.toText b)
    return .string (← HeapM.intern (s ++ t))
  else
    let x ← HeapM.look (·.toNumber a)
    let y ← HeapM.look (·.toNumber b)
    return .number (x.add y)

/-- `a + b`. -/
def genericAdd (a b : Value) : HeapM Value :=
  match a, b with
  | .int32 i, .int32 j => return arithInt32 .add i j
  | a, b => do
    let a ← toPrimitive a
    let b ← toPrimitive b
    addPrimitives a b

namespace Heap

/-- `a - b`. -/
def sub (h : Heap) (a b : Value) : Except OpError Value :=
  match a, b with
  | .int32 i, .int32 j => .ok (arithInt32 .sub i j)
  | a, b => do
    let x ← h.toNumber a
    let y ← h.toNumber b
    return .number (x.sub y)

/-- `+v`. -/
def pos (h : Heap) (v : Value) : Except OpError Value :=
  if v.isNumber then .ok v else (h.toNumber v).map Value.number

/-- A binary bitwise operator; the left operand is converted first. -/
def bitOp (h : Heap) (op : BitOp) (a b : Value) : Except OpError Value := do
  let i ← h.toInt32 a
  let j ← h.toInt32 b
  return op.apply i j

/-- `~v`. -/
def bitNot (h : Heap) (v : Value) : Except OpError Value :=
  (h.toInt32 v).map fun i => .int32 (~~~i)

/-- `!v`. -/
def not (h : Heap) (v : Value) : Except OpError Bool := (h.toBoolean v).map Bool.not

end Heap

/-- An additive operator on any values. -/
def genericArith (op : ArithOp) (a b : Value) : HeapM Value :=
  match op with
  | .add => genericAdd a b
  | .sub => HeapM.look (·.sub a b)

end FastPath
