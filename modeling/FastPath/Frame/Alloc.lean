import FastPath.Frame.Sync

/-!
# Allocating registers

Tracker operations that may emit code or fail run in `FrameM`, on a frame together with
the code emitted so far. What an operation did before it failed stays done.

A register is allocated as a temporary. If none is available, the least recently used
register that holds a slot is evicted: what memory lacks is stored first.
-/

namespace FastPath

/-- A frame and the code emitted along with it. -/
structure Emission where
  frame : Frame
  code : Array Inst
deriving Repr, Inhabited

/-- Operations that track the frame and emit code. -/
abbrev FrameM := EStateM CompileError Emission

namespace FrameM

/-- The current frame. -/
def frame : FrameM Frame := return (← get).frame

/-- Change the frame. -/
def update (g : Frame → Frame) : FrameM Unit := modify fun s => { s with frame := g s.frame }

/-- Change the register file. -/
def updateRegs (g : RegisterFile → RegisterFile) : FrameM Unit := update (·.mapRegs g)

/-- Emit an instruction. -/
def emit (i : Inst) : FrameM Unit := modify fun s => { s with code := s.code.push i }

/-- Emit several instructions. -/
def emitAll (is : List Inst) : FrameM Unit :=
  modify fun s => { s with code := is.foldl Array.push s.code }

/-- Fail with a contradiction at the current operation. -/
def fail {α : Type} (v : Violation) : FrameM α := do throw (.violation (← frame).pc v)

/-- Push an entry; gives its slot. -/
def push (e : Entry) : FrameM Slot := do
  let slot := (← frame).sp
  update (·.push e)
  return slot

/-! ### Evicting -/

/-- Store what the memory of an evicted payload lacks. A known type implies the tag, which
is stored along with it. -/
def evictData (r : Reg) (slot : Slot) : FrameM Unit := do
  let e := (← frame).entry slot
  unless e.dataSynced do emit (.storePayload slot (.reg r))
  match e.type.tag?, e.tagSynced with
  | some t, false =>
    emit (.storeTag slot (.ofTag t))
    update (·.update slot fun e => { e with tagSynced := true })
  | _, _ => pure ()
  update (·.update slot fun e => { e with data := .memory, dataSynced := true })

/-- Store an evicted tag if memory lacks it. -/
def evictTag (r : Reg) (slot : Slot) : FrameM Unit := do
  unless ((← frame).entry slot).tagSynced do emit (.storeTag slot (.reg r))
  update (·.update slot fun e => { e with tag := none, tagSynced := true })

/-- Make a register free; it then holds no slot. -/
def evict (r : Reg) : FrameM Unit := do
  match (← frame).regs.binding r with
  | .data slot =>
    evictData r slot
    update fun f => (f.mapRegs (·.bind r .free)).bumpGeneration
  | .tag slot =>
    evictTag r slot
    update fun f => (f.mapRegs (·.bind r .free)).bumpGeneration
  | .free | .temp => return

/-- Make a double register free. Storing a double stores its tag. -/
def evictDouble (r : FReg) : FrameM Unit := do
  match (← frame).regs.fbinding r with
  | .data slot =>
    unless ((← frame).entry slot).dataSynced do emit (.storeValue slot (.double r))
    update fun f =>
      ((f.update slot fun e => { e with data := .memory }.synced).mapRegs
        (·.fbind r .free)).bumpGeneration
  | _ => return

/-! ### Temporaries -/

/-- Allocate a temporary. -/
def alloc : FrameM Reg := do
  let f ← frame
  match f.regs.take? with
  | some (r, regs) =>
    updateRegs fun _ => regs
    return r
  | none =>
    match f.regs.victim? with
    | none => throw (.registersExhausted f.pc)
    | some r =>
      evict r
      updateRegs (·.bind r .temp)
      return r

/-- Allocate a double temporary. -/
def allocDouble : FrameM FReg := do
  let f ← frame
  match f.regs.ftake? with
  | some (r, regs) =>
    updateRegs fun _ => regs
    return r
  | none =>
    match f.regs.fvictim? with
    | none => throw (.registersExhausted f.pc)
    | some r =>
      evictDouble r
      updateRegs (·.fbind r .temp)
      return r

/-- Take a particular register as a temporary. -/
def take (r : Reg) : FrameM Reg := do
  let f ← frame
  match f.regs.binding r with
  | .temp => fail (.alreadyTemp r)
  | b =>
    if f.regs.isPinned r then fail (.isPinned r)
    if b.slot?.isSome then evict r
    updateRegs (·.bind r .temp)
    return r

/-- Give back a temporary. -/
def free (r : Reg) : FrameM Unit := do
  unless (← frame).regs.binding r = .temp do fail (.freedNoTemp r)
  updateRegs (·.bind r .free)

/-- Give back a double temporary. -/
def freeDouble (r : FReg) : FrameM Unit := do
  unless (← frame).regs.fbinding r = .temp do fail (.freedNoDoubleTemp r)
  updateRegs (·.fbind r .free)

/-- Pin a register; tells whether it was not pinned before. -/
def pin (r : Reg) : FrameM Bool := do
  let newly := !(← frame).regs.isPinned r
  updateRegs (·.setPinned r true)
  return newly

/-- Unpin a register. -/
def unpin (r : Reg) : FrameM Unit := updateRegs (·.setPinned r false)

/-- Run with a register pinned. -/
def withPinned {α : Type} (r : Reg) (x : FrameM α) : FrameM α := do
  let newly ← pin r
  try x finally if newly then unpin r

/-- Run with a double register pinned. -/
def withDoublePinned {α : Type} (r : FReg) (x : FrameM α) : FrameM α := do
  let newly := !(← frame).regs.isFPinned r
  updateRegs (·.setFPinned r true)
  try x finally if newly then updateRegs (·.setFPinned r false)

/-! ### Types -/

/-- Where the tag of a slot of unknown type can be read. -/
def tagOperand (slot : Slot) : FrameM Operand := do
  let f ← frame
  let e := f.backingEntry slot
  unless e.type = .unknown do fail (.tagOperandOf e.type)
  match e.tag with
  | some r => return .reg r
  | none => return .tag (f.backing slot)

/-- Record a type that holds from here on. The tag is implied by it, so its register is
given back. -/
def learnType (slot : Slot) (t : KnownType) : FrameM Unit := do
  if t.tag?.isNone then fail (.cannotLearn t)
  let f ← frame
  let e := f.backingEntry slot
  if e.constant?.isSome ∨ e.type = t then return
  match e.data with
  | .freg r => fail (.learnsHeldDouble t r)
  | _ =>
    update fun f =>
      ((f.mapRegs (Frame.freeTag · e.tag)).update (f.backing slot) fun e =>
        { e with tag := none, type := t, types := .ofKnown t }).bumpGeneration

/-! ### Pushing registers -/

/-- Push a value of known type whose payload is in a temporary. -/
def pushTyped (t : KnownType) (r : Reg) : FrameM Slot := do
  if t.tag?.isNone then fail (.typedPush t)
  unless (← frame).regs.binding r = .temp do fail (.pushedNoTemp r)
  let slot ← push { Entry.unsynced t (.ofKnown t) with data := .reg r }
  updateRegs (·.bind r (.data slot))
  return slot

/-- Push a number that is in a double temporary. -/
def pushDouble (r : FReg) : FrameM Slot := do
  unless (← frame).regs.fbinding r = .temp do fail (.pushedNoDoubleTemp r)
  let slot ← push { Entry.unsynced .double (.ofKnown .double) with data := .freg r }
  updateRegs (·.fbind r (.data slot))
  return slot

/-- Push a value whose tag and payload are in temporaries. If the type implies the tag,
its register is given back. -/
def pushRegs (tag payload : Reg) (types : TypeSet) : FrameM Slot := do
  if types.knownType.tag?.isSome then
    free tag
    let slot ← pushTyped types.knownType payload
    update (·.update slot fun e => { e with types })
    return slot
  else
    let f ← frame
    unless f.regs.binding tag = .temp do fail (.pushedNoTemp tag)
    unless f.regs.binding payload = .temp do fail (.pushedNoTemp payload)
    let slot ← push { Entry.unsynced .unknown types with data := .reg payload, tag := some tag }
    updateRegs (·.bind payload (.data slot))
    updateRegs (·.bind tag (.tag slot))
    return slot

/-! ### Syncing -/

/-- Bring the memory of one slot up to date. -/
def syncEntry (slot : Slot) : FrameM Unit := do
  emitAll ((← frame).entrySyncCode slot)
  update (·.update slot Entry.synced)

/-- Bring the memory of every slot up to date. -/
def syncAll : FrameM Unit := do
  emitAll (← frame).syncCode
  update (·.mapLive Entry.synced)

/-- Fail if a temporary or a pin is left. -/
def ensureNoTemps : FrameM Unit := do
  match (← frame).liveFault? with
  | some v => fail v
  | none => return

/-- Bring memory up to date and drop every register, ahead of a call that keeps none. -/
def syncAndKill : FrameM Unit := do
  ensureNoTemps
  syncAll
  update fun f => ((f.mapLive Entry.withoutRegs).mapRegs (·.reset)).bumpGeneration

/-- Bring memory up to date and return to the canonical frame. -/
def syncAndForget : FrameM Unit := do
  ensureNoTemps
  syncAll
  update fun f => f.reset f.depth

/-- Fail if something is wrong with the frame. -/
def check : FrameM Unit := do
  match (← frame).fault? with
  | some v => fail v
  | none => return

end FrameM

end FastPath
