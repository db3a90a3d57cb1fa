import FastPath.Generic.Arith
import FastPath.Generic.Compare
import FastPath.Generic.Element
import FastPath.Stub.Kind

/-!
# Calling stubs

A stub runs on the heap and the memory of a frame. It reads its operands just below the
stack pointer, and its result replaces the first of them. A stub that fails leaves the
frame as it was.
-/

namespace FastPath

/-- What a stub may change. -/
structure StubState where
  heap : Heap
  /-- The memory of the frame. -/
  slots : Array Cell
deriving Inhabited

/-- Stub calls. -/
abbrev StubM := EStateM OpError StubState

instance : MonadLift HeapM StubM where
  monadLift x := fun ⟨heap, slots⟩ =>
    match x heap with
    | .ok a heap => .ok a ⟨heap, slots⟩
    | .error e heap => .error e ⟨heap, slots⟩

/-- The call of a stub. -/
structure StubCall where
  function : Bytecode.Function
  sp : Nat
  /-- The argument word. -/
  arg : Int64

namespace StubCall

/-- The operand `depth` slots below the stack pointer. -/
def operand (c : StubCall) (depth : Nat) : StubM Value := do
  if c.sp < depth then throw .operandBelowFrame
  match (← get).slots[c.sp - depth]? with
  | none => throw (.operandOutsideFrame (c.sp - depth))
  | some cell =>
    match cell.decode with
    | .ok v => return v
    | .error e => throw e

/-- Write the slot `depth` below the stack pointer. -/
def write (c : StubCall) (depth : Nat) (v : Value) : StubM Unit := do
  if c.sp < depth then throw .resultBelowFrame
  let slot := c.sp - depth
  if slot < (← get).slots.size then
    modify fun s => { s with slots := s.slots.setIfInBounds slot v.toCell }
  else throw (.resultOutsideFrame slot)

/-- The argument as an index. -/
def index (c : StubCall) : Nat := c.arg.toUInt64.toUInt32.toNat

/-- The name that the argument refers to, interned. -/
def name (c : StubCall) : StubM StrId := do
  match c.function.stringConstant? c.index with
  | some text => HeapM.intern text
  | none => throw (.notAName c.arg.toInt)

/-- The names of a template, interned in order. -/
def templateNames (c : StubCall) : List Nat → HeapM (List StrId)
  | [] => return []
  | n :: ns => do
    match c.function.stringConstant? n with
    | none => throw .templateName
    | some text =>
      let key ← HeapM.intern text
      return key :: (← c.templateNames ns)

/-- A unary operation in place. -/
def unary (c : StubCall) (op : Value → HeapM Value) : StubM UInt64 := do
  let v ← c.operand 1
  c.write 1 (← op v)
  return 0

/-- A binary operation in place. -/
def binary (c : StubCall) (op : Value → Value → HeapM Value) : StubM UInt64 := do
  let a ← c.operand 2
  let b ← c.operand 1
  c.write 2 (← op a b)
  return 0

/-- A boolean as a word. -/
def boolWord (b : Bool) : UInt64 := if b then 1 else 0

/-- Write a boolean and return it. -/
def answer (c : StubCall) (depth : Nat) (b : Bool) : StubM UInt64 := do
  c.write depth (.boolean b)
  return boolWord b

/-- Write a new object at the stack pointer. -/
def create (c : StubCall) (o : ObjId) : StubM UInt64 := do
  c.write 0 (.object o)
  return 0

/-- Define a property of a literal. -/
def initProp (c : StubCall) : StubM UInt64 := do
  let name ← c.name
  let obj ← c.operand 2
  let v ← c.operand 1
  initProperty obj name v
  c.write 2 obj
  return 0

/-- The object of a template. -/
def newObject (c : StubCall) : HeapM ObjId := do
  match c.function.template? c.index with
  | none => throw (.noTemplate c.arg.toInt)
  | some t =>
    let keys ← c.templateNames t.properties.toList
    modifyGet fun h => h.newKeyed keys

/-- An array literal. -/
def newArray (c : StubCall) : HeapM ObjId := do
  match (← get).newArrayLiteral c.index with
  | .error e => throw e
  | .ok (o, h) =>
    set h
    return o

/-- Run a stub; gives the word it returns. -/
def invoke (c : StubCall) : Stub → StubM UInt64
  | .bit op => c.binary fun a b => HeapM.look (·.bitOp op a b)
  | .bitNot => c.unary fun v => HeapM.look (·.bitNot v)
  | .arith op => c.binary (genericArith op)
  | .pos => c.unary fun v => HeapM.look (·.pos v)
  | .not => do
    let v ← c.operand 1
    c.answer 1 (← HeapM.look (·.not v))
  | .truth => do
    let v ← c.operand 1
    return boolWord (← HeapM.look (·.toBoolean v))
  | .typeOf => c.unary fun v => return .string v.typeOf
  | .compare op => do
    let a ← c.operand 2
    let b ← c.operand 1
    c.answer 2 (← genericCompare op a b)
  | .getElem => c.binary getElement
  | .setElem => do
    let obj ← c.operand 3
    let key ← c.operand 2
    let v ← c.operand 1
    setElement obj key v
    c.write 3 v
    return 0
  | .newInit => do c.create (← (modifyGet Heap.newPlain : HeapM ObjId))
  | .newObject => do c.create (← c.newObject)
  | .newArray => do c.create (← c.newArray)
  | .initProp | .initMethod => c.initProp
  | .initElem => do
    let obj ← c.operand 3
    let key ← c.operand 2
    let v ← c.operand 1
    initElement obj key v (c.arg != 0)
    c.write 3 obj
    return 0

end StubCall

end FastPath
