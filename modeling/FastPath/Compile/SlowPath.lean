import FastPath.Frame.Store
import FastPath.Target.Buffer

/-!
# Slow paths

A guard in the fast stream leads to the slow stream, where the frame is stored, a stub is
called, the registers are loaded again, and control goes back. The pieces of that round
trip are kept per operation: the guards that wait for a slow path, and the calls that wait
to be told how the operation leaves the stack.

Code that stores the frame fits one generation of it. Guards that are linked to such code,
at once or later, must have been emitted at that same generation; otherwise the exit is
stale and compilation fails.
-/

namespace FastPath

/-- Code in the slow stream that stores the frame of one generation. -/
structure ExitLabel where
  label : Label
  generation : Nat
deriving DecidableEq, Repr, Inhabited

/-- A stub call whose operation may not be complete. -/
structure PendingCall where
  pc : Nat
  resumePc : Nat
  call : Label
  sp : Nat
  /-- The stack pointer after the operation, once that is known. -/
  spAfter : Option Nat
  changes : Nat
  rejoin : Option Label
  monitored : Option UInt8
deriving DecidableEq, Repr, Inhabited

/-- The bookkeeping of slow paths. -/
structure SlowPath where
  /-- Guards that wait for a slow path. -/
  exits : Array Jump
  /-- The generation at which they were emitted. -/
  exitGeneration : Option Nat
  calls : Array PendingCall
  /-- Number of calls made before the current operation. -/
  opStart : Nat
  pc : Nat
  resumePc : Nat
  monitored : Option UInt8
deriving DecidableEq, Repr, Inhabited

namespace SlowPath

/-- Nothing recorded. -/
def empty : SlowPath := ⟨#[], none, #[], 0, 0, 0, none⟩

/-- Start an operation. -/
def beginOp (s : SlowPath) (pc resumePc : Nat) (monitored : Option UInt8) : SlowPath :=
  { s with pc, resumePc, monitored, opStart := s.calls.size }

/-- Some guard waits for a slow path. -/
def hasExits (s : SlowPath) : Bool := !s.exits.isEmpty

/-- Record a call. -/
def record (s : SlowPath) (call : Label) (sp : Nat) : SlowPath :=
  { s with
    calls := s.calls.push
      { pc := s.pc
        resumePc := s.resumePc
        call
        sp
        spAfter := none
        changes := 0
        rejoin := none
        monitored := s.monitored } }

/-- Complete the calls of the current operation that are not complete yet. -/
def complete (s : SlowPath) (spAfter changes : Nat) (rejoin : Option Label) : SlowPath :=
  { s with
    calls := s.calls.mapIdx fun i c =>
      if s.opStart ≤ i ∧ c.spAfter.isNone then
        { c with spAfter := some spAfter, changes, rejoin }
      else c }

/-- A call of the current operation is not complete. -/
def hasOpenCall (s : SlowPath) : Bool :=
  (s.calls.toList.drop s.opStart).any fun c => c.spAfter.isNone

end SlowPath

/-- A frame, the code emitted along with it, and its slow paths. -/
structure Assembly where
  frame : Frame
  buffer : CodeBuffer
  slow : SlowPath
deriving Repr, Inhabited

/-- Operations that emit into both streams. -/
abbrev AsmM := EStateM CompileError Assembly

instance : MonadLift FrameM AsmM where
  monadLift x := fun ⟨frame, ⟨fast, slow, links⟩, paths⟩ =>
    match x ⟨frame, fast⟩ with
    | .ok a ⟨frame, fast⟩ => .ok a ⟨frame, ⟨fast, slow, links⟩, paths⟩
    | .error e ⟨frame, fast⟩ => .error e ⟨frame, ⟨fast, slow, links⟩, paths⟩

namespace AsmM

/-- The current frame. -/
def frame : AsmM Frame := return (← get).frame

/-- Change the frame. -/
def updateFrame (g : Frame → Frame) : AsmM Unit := modify fun s => { s with frame := g s.frame }

/-! ### Emitting -/

/-- The current end of a stream. -/
def label (stream : Stream) : AsmM Label := return (← get).buffer.label stream

/-- Emit an instruction. -/
def emit (stream : Stream) (i : Inst) : AsmM Unit :=
  modify fun s => { s with buffer := s.buffer.emit stream i }

/-- Emit several instructions. -/
def emitAll (stream : Stream) (is : List Inst) : AsmM Unit :=
  modify fun s => { s with buffer := s.buffer.emitAll stream is }

/-- Emit a branch that has no target yet. -/
def branch (stream : Stream) (g : Guard) : AsmM Jump :=
  modifyGet fun s =>
    let (jump, buffer) := s.buffer.emitBranch stream g
    (jump, { s with buffer })

/-- Record where a branch leads. -/
def link (jump : Jump) (l : Label) : AsmM Unit :=
  modify fun s => { s with buffer := s.buffer.link jump (.label l) }

/-- Record that a branch leads to a bytecode instruction. -/
def linkPc (jump : Jump) (pc : Nat) : AsmM Unit :=
  modify fun s => { s with buffer := s.buffer.link jump (.pc pc) }

/-- Record that several branches lead to one label. -/
def linkAll (jumps : List Jump) (l : Label) : AsmM Unit :=
  modify fun s => { s with buffer := s.buffer.linkAll jumps l }

/-! ### Exits -/

/-- Change the bookkeeping. -/
def updateSlow (g : SlowPath → SlowPath) : AsmM Unit := modify fun s => { s with slow := g s.slow }

/-- Fail because an exit is stale. -/
def stale {α : Type} (cause : Staleness) : AsmM α := do
  throw (.staleExit (← get).slow.pc cause)

/-- Some guard waits for a slow path. -/
def hasExits : AsmM Bool := return (← get).slow.hasExits

/-- Let a guard wait for the next slow path. -/
def linkExit (jump : Jump) : AsmM Unit := do
  let s ← get
  let generation := s.frame.generation
  if s.slow.exitGeneration.any (· ≠ generation) then stale .mixedExits
  updateSlow fun p =>
    { p with exits := p.exits.push jump, exitGeneration := some generation }

/-- Lead all waiting guards to code that stores the frame. -/
def leave : AsmM Label := do
  let s ← get
  if s.slow.exitGeneration.any (· ≠ s.frame.generation) then stale .frameChanged
  let start ← label .slow
  linkAll s.slow.exits.toList start
  updateSlow fun p => { p with exits := #[], exitGeneration := none }
  emitAll .slow s.frame.syncCode
  return start

/-- Emit code that stores the frame. -/
def syncExit : AsmM ExitLabel := do
  let f ← frame
  let start ← label .slow
  emitAll .slow f.syncCode
  return ⟨start, f.generation⟩

/-- Lead a guard to code that stores the frame, which must be of this generation. -/
def linkExitDirect (jump : Jump) (exit : ExitLabel) : AsmM Unit := do
  unless exit.generation = (← frame).generation do stale .olderLabel
  link jump exit.label

/-! ### Calls -/

/-- Emit a call and record it. -/
def emitCall (stream : Stream) (inst : Nat → Inst) : AsmM Label := do
  let position ← label stream
  let sp := (← frame).sp
  emit stream (inst sp)
  updateSlow (·.record position sp)
  return position

/-- Call a stub out of line. -/
def call (stub : Stub) (arg : Int64) : AsmM Label := emitCall .slow fun sp => .callStub stub sp arg

/-- Call a stub in line; the frame must have been stored and its registers dropped. -/
def callInline (stub : Stub) (arg : Int64) : AsmM Label :=
  emitCall .fast fun sp => .callStub stub sp arg

/-- Call the generic form of a cached access out of line. -/
def callCache (cache : CacheId) (preserve : RegMask) : AsmM Label :=
  emitCall .slow fun sp => .callCache cache sp preserve

/-- Lead the waiting guards to a stub call. -/
def slowCall (stub : Stub) (arg : Int64) : AsmM Unit := do
  let _ ← leave
  let _ ← call stub arg

/-! ### Merging back -/

/-- Load the registers of the completed operation and go back to the fast stream. -/
def rejoin (changes : Nat) : AsmM Unit := do
  if ← hasExits then stale .rejoinedEarly
  let target ← label .fast
  let f ← frame
  emitAll .slow f.mergeCode
  link (← branch .slow .always) target
  updateSlow (·.complete f.sp changes (some target))

/-- Complete the in-line calls of the operation. -/
def rejoinInline (changes : Nat) : AsmM Unit := do
  let target ← label .fast
  let f ← frame
  updateSlow (·.complete f.sp changes (some target))

/-- Complete calls whose slow path goes on to bytecode instructions. -/
def rejoinAtBranch (spAfter changes : Nat) : AsmM Unit :=
  updateSlow (·.complete spAfter changes none)

/-- Lead a branch to the current end of the fast stream. -/
def linkRejoin (jump : Jump) : AsmM Unit := do link jump (← label .fast)

/-- Check that the operation has left nothing open. -/
def endOp : AsmM Unit := do
  if ← hasExits then stale .neverCalled
  let s ← get
  if s.slow.hasOpenCall then throw (.violation s.slow.pc .callWithoutRejoin)

end AsmM

end FastPath
