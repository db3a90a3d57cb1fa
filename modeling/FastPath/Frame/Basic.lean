import FastPath.Compile.Error
import FastPath.Frame.Registers
import FastPath.Types.Set

/-!
# The frame tracker

While a function is compiled the tracker follows what each frame slot holds and where.
A slot owns its value, copies the value of a lower slot, or is a constant. The payload and
the tag of a value may each be in memory or in a register, and each may or may not be up
to date in memory.

The generation counts the changes after which a register may hold something else than
before: pushes, pops, evictions, moves between slots. Loading a slot into an available
register is not one of them. Code that restores memory from registers is good for one
generation only.
-/

namespace FastPath

/-- The literal that a slot holds while it is under construction. -/
inductive InitTarget where
  /-- An object literal of a template. -/
  | object (template : Nat)
  /-- An array literal of a declared length. -/
  | array (length : Nat)
  /-- An object literal without template. -/
  | empty
deriving DecidableEq, Repr, Inhabited

/-- Where the payload of a slot is. -/
inductive DataLoc where
  | memory
  | reg (r : Reg)
  /-- In a double register, as a number. -/
  | freg (r : FReg)
deriving DecidableEq, Repr, Inhabited

/-- How a slot comes by its value. -/
inductive Role where
  | own
  /-- The value of a lower slot. -/
  | copyOf (slot : Slot)
  | constant (v : Value)
deriving DecidableEq, Repr, Inhabited

/-- What is known about one slot. -/
structure Entry where
  type : KnownType
  role : Role
  data : DataLoc
  /-- The register of the tag; otherwise it is in memory or implied by the type. -/
  tag : Option Reg
  /-- The payload in memory is up to date. -/
  dataSynced : Bool
  /-- The tag in memory is up to date. -/
  tagSynced : Bool
  types : TypeSet
  init : Option InitTarget
deriving DecidableEq, Repr

namespace Entry

/-- A value that is in memory. -/
def inMemory (types : TypeSet) : Entry where
  type := types.knownType
  role := .own
  data := .memory
  tag := none
  dataSynced := true
  tagSynced := true
  types := types
  init := none

instance : Inhabited Entry := ⟨inMemory .unknown⟩

/-- A value that memory does not have yet. -/
def unsynced (type : KnownType) (types : TypeSet) : Entry where
  type := type
  role := .own
  data := .memory
  tag := none
  dataSynced := false
  tagSynced := false
  types := types
  init := none

/-- A constant. -/
def constant (v : Value) : Entry :=
  { unsynced (.ofValue v) (.ofKnown (.ofValue v)) with role := .constant v }

/-- A copy of a lower slot. -/
def copy (slot : Slot) : Entry := { unsynced .unknown .unknown with role := .copyOf slot }

/-- The slot that the entry copies. -/
def copyOf? (e : Entry) : Option Slot :=
  match e.role with
  | .copyOf s => some s
  | _ => none

/-- The constant that the entry is. -/
def constant? (e : Entry) : Option Value :=
  match e.role with
  | .constant v => some v
  | _ => none

/-- The slot's own memory is up to date. -/
def isSynced (e : Entry) : Bool := e.dataSynced && e.tagSynced

/-- The entry with its memory up to date. -/
def synced (e : Entry) : Entry := { e with dataSynced := true, tagSynced := true }

/-- The entry without registers. -/
def withoutRegs (e : Entry) : Entry := { e with data := .memory, tag := none }

end Entry

/-- The tracker. -/
structure Frame where
  argCount : Nat
  localCount : Nat
  /-- An entry for each slot; those at or above `sp` mean nothing. -/
  entries : Array Entry
  /-- The next slot of the operand stack. -/
  sp : Nat
  regs : RegisterFile
  /-- The types of arguments and locals at any time. -/
  baseTypes : Array TypeSet
  generation : Nat
  /-- The operation being compiled, for errors. -/
  pc : Nat
  /-- The highest stack pointer so far. -/
  maxSp : Nat
deriving Repr, Inhabited

namespace Frame

/-- The frame at function entry: everything is in memory. -/
def new (argCount localCount : Nat) (baseTypes : Array TypeSet) (maxDepth : Nat) : Frame :=
  let size := argCount + localCount + maxDepth + 1
  let typed := (baseTypes.map Entry.inMemory).extract 0 size
  { argCount
    localCount
    entries := typed ++ Array.replicate (size - typed.size) default
    sp := argCount + localCount
    regs := .new
    baseTypes
    generation := 0
    pc := 0
    maxSp := argCount + localCount }

/-! ### Layout -/

/-- The first slot of the operand stack. -/
def stackBase (f : Frame) : Nat := f.argCount + f.localCount

/-- The depth of the operand stack. -/
def depth (f : Frame) : Nat := f.sp - f.stackBase

/-- The slot of a variable. -/
def varSlot (f : Frame) : Bytecode.Var → Slot
  | .arg i => i.toNat
  | .loc i => f.argCount + i.toNat

/-- The `n`-th slot from the top; the top is the first. -/
def peek (f : Frame) (n : Nat) : Slot := f.sp - n

/-- The entry of a slot. -/
def entry (f : Frame) (slot : Slot) : Entry := f.entries[slot]?.getD default

/-- Change the entry of a slot. -/
def update (f : Frame) (slot : Slot) (g : Entry → Entry) : Frame :=
  { f with entries := f.entries.modify slot g }

/-- Replace the entry of a slot. -/
def setEntry (f : Frame) (slot : Slot) (e : Entry) : Frame := f.update slot fun _ => e

/-- Change the register file. -/
def mapRegs (f : Frame) (g : RegisterFile → RegisterFile) : Frame := { f with regs := g f.regs }

/-- Note that a register may hold something else now. -/
def bumpGeneration (f : Frame) : Frame := { f with generation := f.generation + 1 }

/-! ### Queries -/

/-- The slot that has the value of `slot`. -/
def backing (f : Frame) (slot : Slot) : Slot := (f.entry slot).copyOf?.getD slot

/-- The entry that has the value of `slot`. -/
def backingEntry (f : Frame) (slot : Slot) : Entry := f.entry (f.backing slot)

/-- The slot copies a lower one. -/
def isCopy (f : Frame) (slot : Slot) : Bool := (f.entry slot).copyOf?.isSome

/-- The slots below `sp` that copy `slot`, lowest first. -/
def copiesOf (f : Frame) (slot : Slot) : List Slot :=
  (List.range f.sp).filter fun s => slot < s && (f.entry s).copyOf? = some slot

/-- The two slots have their value in one place. -/
def sameBacking (f : Frame) (a b : Slot) : Bool := f.backing a = f.backing b

/-- The known type of a slot. -/
def knownType (f : Frame) (slot : Slot) : KnownType := (f.backingEntry slot).type

/-- The constant that a slot is known to be. -/
def constant? (f : Frame) (slot : Slot) : Option Value := (f.backingEntry slot).constant?

/-- The 32-bit integer that a slot is known to be. -/
def int32Constant? (f : Frame) (slot : Slot) : Option Int32 :=
  match f.constant? slot with
  | some (.int32 i) => some i
  | _ => none

/-- The number that a slot is known to be. -/
def numberConstant? (f : Frame) (slot : Slot) : Option Double :=
  (f.constant? slot).bind Value.double?

/-- The types of a slot: a known type is used where nothing else is known. -/
def types (f : Frame) (slot : Slot) : TypeSet :=
  let e := f.backingEntry slot
  if e.type ≠ .unknown ∧ e.types.isUnknown then .ofKnown e.type else e.types

/-- The literal under construction in a slot. -/
def initTarget? (f : Frame) (slot : Slot) : Option InitTarget := (f.backingEntry slot).init

/-- The register that holds the payload. -/
def dataReg? (f : Frame) (slot : Slot) : Option Reg :=
  match (f.backingEntry slot).data with
  | .reg r => some r
  | _ => none

/-- The register that holds the tag. -/
def tagReg? (f : Frame) (slot : Slot) : Option Reg := (f.backingEntry slot).tag

/-- The slot's own memory is up to date. -/
def isSynced (f : Frame) (slot : Slot) : Bool := (f.entry slot).isSynced

/-- Record which literal a slot holds. -/
def setInitTarget (f : Frame) (slot : Slot) (init : Option InitTarget) : Frame :=
  f.update (f.backing slot) fun e => { e with init }

/-- Record the types of a slot. -/
def setTypes (f : Frame) (slot : Slot) (types : TypeSet) : Frame :=
  f.update (f.backing slot) fun e => { e with types }

/-! ### Pushing and popping -/

/-- Push an entry; its slot is the old stack pointer. -/
def push (f : Frame) (e : Entry) : Frame :=
  { f with
    entries := if f.sp < f.entries.size then f.entries.setIfInBounds f.sp e else f.entries.push e
    sp := f.sp + 1
    maxSp := max f.maxSp (f.sp + 1)
    generation := f.generation + 1 }

/-- Push a constant. -/
def pushConstant (f : Frame) (v : Value) : Frame := f.push (.constant v)

/-- Push a value that is in the memory of its slot already. -/
def pushSynced (f : Frame) (types : TypeSet) : Frame := f.push (.inMemory types)

/-- Push a copy of a slot; a constant is pushed as itself. -/
def pushCopy (f : Frame) (slot : Slot) : Frame :=
  match f.constant? slot with
  | some v => f.pushConstant v
  | none => f.push (.copy (f.backing slot))

/-- Push a copy of a variable. -/
def pushVar (f : Frame) (v : Bytecode.Var) : Frame := f.pushCopy (f.varSlot v)

/-- Push a copy of the top. -/
def dup (f : Frame) : Frame := f.pushCopy (f.peek 1)

/-- Free the register that holds a payload. -/
def freeData (regs : RegisterFile) : DataLoc → RegisterFile
  | .memory => regs
  | .reg r => regs.bind r .free
  | .freg r => regs.fbind r .free

/-- Free the register that holds a tag. -/
def freeTag (regs : RegisterFile) : Option Reg → RegisterFile
  | some r => regs.bind r .free
  | none => regs

/-- Free the registers of a slot. -/
def release (f : Frame) (slot : Slot) : Frame :=
  let e := f.entry slot
  { f.update slot Entry.withoutRegs with regs := freeTag (freeData f.regs e.data) e.tag }

/-- Pop the top. -/
def pop (f : Frame) : Frame :=
  { f.release (f.peek 1) with sp := f.sp - 1, generation := f.generation + 1 }

/-- Pop `n` entries. -/
def popN : Nat → Frame → Frame
  | 0, f => f
  | n + 1, f => popN n f.pop

/-- The canonical frame with a given stack depth: everything in memory, arguments and
locals of their types, the stack of unknown types. -/
def reset (f : Frame) (depth : Nat) : Frame :=
  let base := f.stackBase
  let sp := base + depth
  let canonical (slot : Slot) (e : Entry) : Entry :=
    if slot < base then .inMemory (f.baseTypes[slot]?.getD .unknown)
    else if slot < sp then default else e
  { f with
    entries := f.entries.mapIdx canonical ++ Array.replicate (sp - f.entries.size) default
    sp
    regs := f.regs.reset
    generation := f.generation + 1 }

end Frame

end FastPath
