import FastPath.Generic.Convert

/-!
# Comparison

Strict and loose equality, and the four relations. Loose equality first turns a boolean
into an integer and an object into a primitive; what is left are strings and numbers.
-/

namespace FastPath

/-- `a === b`. -/
def strictEquals (a b : Value) : Bool :=
  match a.double?, b.double? with
  | some x, some y => x.eq y
  | none, none => a == b
  | _, _ => false

/-- Values of one tag, or two numbers: loose equality is strict. -/
def comparableStrictly (a b : Value) : Bool := a.tag = b.tag || (a.isNumber && b.isNumber)

/-- A boolean as an integer; other values as they are. -/
def Value.booleanToInt32 : Value → Value
  | .boolean b => .int32 (if b then 1 else 0)
  | v => v

/-- Loose equality of a string or number with a string or number. -/
def Heap.primitiveEquals (h : Heap) (a b : Value) : Except OpError Bool :=
  if comparableStrictly a b then .ok (strictEquals a b)
  else do
    let x ← h.toNumber a
    let y ← h.toNumber b
    return x.eq y

/-- `a == b`. -/
def looseEquals (a b : Value) : HeapM Bool := do
  if comparableStrictly a b then return strictEquals a b
  else if a.isNullish || b.isNullish then return a.isNullish && b.isNullish
  else
    let a ← toPrimitive a.booleanToInt32
    let b ← toPrimitive b.booleanToInt32
    HeapM.look (·.primitiveEquals a b)

/-- Whether an order satisfies a relation. -/
def RelOp.onOrdering : RelOp → Ordering → Bool
  | .lt, o => o = .lt
  | .le, o => o != .gt
  | .gt, o => o = .gt
  | .ge, o => o != .lt

/-- A relation on numbers. -/
def RelOp.onDoubles : RelOp → Double → Double → Bool
  | .lt, x, y => x.lt y
  | .le, x, y => x.le y
  | .gt, x, y => y.lt x
  | .ge, x, y => y.le x

/-- A relation on primitives: strings by their code units, everything else by number. -/
def Heap.primitiveCompare (h : Heap) (op : RelOp) (a b : Value) : Except OpError Bool :=
  match a, b with
  | .string s, .string t => do
    let x ← h.string s
    let y ← h.string t
    return op.onOrdering (Text.compareText x y)
  | a, b => do
    let x ← h.toNumber a
    let y ← h.toNumber b
    return op.onDoubles x y

/-- A relation on any values. -/
def relation (op : RelOp) (a b : Value) : HeapM Bool := do
  let a ← toPrimitive a
  let b ← toPrimitive b
  HeapM.look (·.primitiveCompare op a b)

/-- A comparison of any values. -/
def genericCompare (op : CompareOp) (a b : Value) : HeapM Bool :=
  match op with
  | .equality true negated => return strictEquals a b != negated
  | .equality false negated => do return (← looseEquals a b) != negated
  | .relation op => relation op a b

end FastPath
