import FastPath.Bailout
import FastPath.Code.Basic
import FastPath.Machine.Error
import FastPath.Stub.Invoke

/-!
# Machine state

An activation of compiled code has registers and the memory of a frame; around it are the
heap and what the caches of the code have learned. A register that a call has not kept has
no contents: reading it is a fault, so that a missing reload cannot go unnoticed.
-/

namespace FastPath

/-- Counts of what happened in a run. -/
structure Stats where
  steps : Nat
  fastSteps : Nat
  slowSteps : Nat
  stubCalls : Nat
  cacheCalls : Nat
  /-- Accesses served by a learned case. -/
  cacheHits : Nat
  /-- Inline paths skipped because the cache is megamorphic. -/
  redirects : Nat
  bailouts : Nat
  /-- Holes met where an array was believed to be packed. -/
  holeFaults : Nat
deriving DecidableEq, Repr, Inhabited

/-- Nothing counted. -/
def Stats.zero : Stats := ⟨0, 0, 0, 0, 0, 0, 0, 0, 0⟩

/-- The state of a run. -/
structure Machine where
  regs : Vector (Option UInt64) Reg.count
  fregs : Vector (Option Double) FReg.count
  /-- The memory of the frame. -/
  slots : Array Cell
  heap : Heap
  /-- What the caches have learned. -/
  caches : Array CacheState
  stats : Stats
deriving Inhabited

/-- Where a run is. -/
structure Position where
  code : Code
  function : Bytecode.Function
  /-- Whether events are counted. -/
  counting : Bool
  /-- The current instruction. -/
  offset : Offset

/-- Steps of a run. -/
abbrev MachineM := ReaderT Position (EStateM Fault Machine)

namespace Machine

/-- The memory of a new frame: the arguments, and `undefined` elsewhere. -/
def initialSlots (code : Code) (args : List Value) : Array Cell :=
  let given := ((args.take code.argCount).take code.frameSize).map Value.toCell
  given.toArray ++ Array.replicate (code.frameSize - given.length) .undefined

/-- The state in which a run starts. -/
def start (live : LiveCode) (heap : Heap) (args : List Value) : Machine where
  regs := Vector.replicate _ (some 0)
  fregs := Vector.replicate _ (some .zero)
  slots := initialSlots live.code args
  heap := heap
  caches := live.states
  stats := .zero

/-- The registers after a call that keeps only some of them and returns a word. -/
def clobber (m : Machine) (preserve : RegMask) (word : UInt64) : Machine :=
  let regs := m.regs.mapIdx fun i v => if preserve.hasReg ⟨i⟩ then v else none
  { m with
    regs := if preserve.hasReg .result then regs
      else regs.setIfInBounds Reg.result.index (some word)
    fregs := m.fregs.mapIdx fun i v => if preserve.hasFReg ⟨i⟩ then v else none }

end Machine

namespace MachineM

/-- Fail at the current position. -/
def fault {α : Type} (f : Offset → Fault) : MachineM α := do throw (f (← read).offset)

/-- Count an event. -/
def count (f : Stats → Stats) : MachineM Unit := do
  if (← read).counting then modify fun m => { m with stats := f m.stats }

/-- Take the result of an operation that should not fail. -/
def expect {α : Type} : Except OpError α → MachineM α
  | .ok a => return a
  | .error e => throw (.heap e)

/-! ### Registers -/

/-- Read a register. -/
def getReg (r : Reg) : MachineM UInt64 := do
  match (← get).regs[r.index]? with
  | some (some w) => return w
  | some none => fault (.clobberedReg r)
  | none => fault (.invalidReg r)

/-- Write a register. -/
def setReg (r : Reg) (w : UInt64) : MachineM Unit := do
  if r.index < Reg.count then
    modify fun m => { m with regs := m.regs.setIfInBounds r.index (some w) }
  else fault (.invalidReg r)

/-- Write a register if there is one. -/
def setReg? (r : Option Reg) (w : UInt64) : MachineM Unit :=
  match r with
  | some r => setReg r w
  | none => return

/-- Read a double register. -/
def getFReg (r : FReg) : MachineM Double := do
  match (← get).fregs[r.index]? with
  | some (some d) => return d
  | some none => fault (.clobberedFReg r)
  | none => fault (.invalidFReg r)

/-- Write a double register. -/
def setFReg (r : FReg) (d : Double) : MachineM Unit := do
  if r.index < FReg.count then
    modify fun m => { m with fregs := m.fregs.setIfInBounds r.index (some d) }
  else fault (.invalidFReg r)

/-! ### Frame memory -/

/-- Read a slot. -/
def getSlot (slot : Slot) : MachineM Cell := do
  match (← get).slots[slot]? with
  | some c => return c
  | none => fault (.slotOutOfRange slot)

/-- Change a slot. -/
def updateSlot (slot : Slot) (f : Cell → Cell) : MachineM Unit := do
  if slot < (← get).slots.size then
    modify fun m => { m with slots := m.slots.modify slot f }
  else fault (.slotOutOfRange slot)

/-- The values of the slots below `sp`. -/
def decodeFrame (sp : Nat) : MachineM (List Value) := do
  let slots := (← get).slots
  if slots.size < sp then fault (.slotOutOfRange sp)
  expect ((slots.toList.take sp).mapM Cell.decode)

/-! ### Operands -/

/-- Read an operand. -/
def operand : Operand → MachineM UInt64
  | .reg r => getReg r
  | .imm n => return n.toUInt64
  | .tag slot => return (← getSlot slot).tag
  | .payload slot => return (← getSlot slot).payload

/-- Read a whole value. A number in a double register becomes an integer where it is
exactly one. -/
def source : Source → MachineM Cell
  | .constant c => return c
  | .typed tag payload => return ⟨tag.word, ← getReg payload⟩
  | .regs tag payload => do
    let t ← getReg tag
    return ⟨t, ← getReg payload⟩
  | .double r => return (Value.number (← getFReg r)).toCell

/-- Read an index. -/
def indexKey : IndexKey → MachineM Nat
  | .constant i => return i.toUInt32.toNat
  | .reg r => return (← getReg r).toUInt32.toNat

/-- The tag word of a cache key. -/
def cacheKeyTag (tag : Option Reg) (knownTag : Option UInt64) : MachineM UInt64 :=
  match tag, knownTag with
  | some r, _ => getReg r
  | none, some w => return w
  | none, none => fault .untaggedKey

/-- Read a cache key. -/
def cacheKey : CacheKey → MachineM Value
  | .constant i => return .int32 i
  | .reg tag payload knownTag => do
    let t ← cacheKeyTag tag knownTag
    expect (Cell.decode ⟨t, ← getReg payload⟩)

/-! ### Heap -/

/-- The object that a register refers to. -/
def objectIn (r : Reg) : MachineM Object := do
  let w ← getReg r
  expect ((← get).heap.objectAt w)

/-- Change the object that a register refers to. -/
def updateObjectIn (r : Reg) (f : Object → MachineM Object) : MachineM Unit := do
  let w ← getReg r
  let o ← expect (Heap.handle w)
  let object ← expect ((← get).heap.object o)
  let object ← f object
  modify fun m => { m with heap := m.heap.setObject o object }

/-- Run an operation on the heap. -/
def onHeap {α : Type} (x : HeapM α) : MachineM α := do
  let m ← get
  match x m.heap with
  | .ok a heap =>
    set { m with heap }
    return a
  | .error e heap =>
    set { m with heap }
    throw (.heap e)

end MachineM

end FastPath
