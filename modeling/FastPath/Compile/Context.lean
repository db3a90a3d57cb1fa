import FastPath.Code.Basic
import FastPath.Compile.SlowPath
import FastPath.Types.Oracle

/-!
# Compiling one operation

Every emitter runs in a context: the function, what is known about it, and the operation
it compiles. An emitter says whether it produced inline code or only a stub call, and the
operation is followed through its lifecycle accordingly.
-/

namespace FastPath

/-- Switches of the compiler. -/
structure Config where
  /-- Compile every operation as a stub call. -/
  genericOnly : Bool
  /-- How many cases an inline cache may learn. -/
  cacheLimit : Nat
  /-- Compile a test together with the branch on it, and similar pairs. -/
  fusion : Bool
deriving DecidableEq, Repr

namespace Config

/-- How many cases a cache may learn unless told otherwise. -/
def defaultCacheLimit : Nat := 4

/-- The usual switches. -/
def standard : Config := ⟨false, defaultCacheLimit, true⟩

/-- Everything through stubs. -/
def generic : Config := { standard with genericOnly := true }

instance : Inhabited Config := ⟨standard⟩

end Config

/-- What the compilation of an operation may look at. -/
structure Context where
  function : Bytecode.Function
  /-- The heap that the code will run on; string constants must be interned in it. -/
  heap : Heap
  oracle : Oracle
  hoister : Hoister
  config : Config
  flow : Bytecode.Flow
  /-- The operation being compiled. -/
  pc : Nat

/-- The state of a compilation. -/
structure Compilation where
  asm : Assembly
  caches : Array (CacheLayout Label)
  /-- The questions put to the hoister so far. -/
  queries : Array HoistQuery
  /-- Where the code of each operation starts. -/
  labels : Array (Option Label)
  lifecycle : Lifecycle
deriving Inhabited

/-- Emitters. -/
abbrev CompileM := ReaderT Context (EStateM CompileError Compilation)

instance : MonadLift AsmM CompileM where
  monadLift x := fun _ ⟨asm, caches, queries, labels, lifecycle⟩ =>
    match x asm with
    | .ok a asm => .ok a ⟨asm, caches, queries, labels, lifecycle⟩
    | .error e asm => .error e ⟨asm, caches, queries, labels, lifecycle⟩

instance : MonadLift FrameM CompileM where
  monadLift x := (monadLift x : AsmM _)

/-- Registers for the result of an integer operation. -/
structure IntResult where
  payload : Reg
  /-- The register of the double that the result becomes, if it does. -/
  wide : Option FReg
  /-- The register of the tag, if the type of the result is not to be known. -/
  tag : Option Reg
deriving DecidableEq, Repr, Inhabited

/-- How an emitter compiled its operation. -/
inductive Emitted where
  | inline
  /-- A stub call and nothing else. -/
  | generic
deriving DecidableEq, Repr, Inhabited

namespace CompileM

open AsmM (frame)

/-- Fail with a contradiction at the current operation. -/
def fail {α : Type} (v : Violation) : CompileM α := do throw (.violation (← read).pc v)

/-- The types that the oracle gives for the result of the operation. -/
def pushedTypes : CompileM TypeSet := do
  let c ← read
  return c.oracle.pushed c.pc

/-- Where the jump `ahead` instructions from here leads. -/
def jumpTarget (ahead : Nat) : CompileM Nat := do
  let c ← read
  match c.function.jumpTarget? (c.pc + ahead) with
  | some t => return t
  | none => throw (.flow (.invalidJumpTarget (c.pc + ahead)))

/-- The instruction `ahead` of this one, if it may be compiled along with it: no jump may
land in between. -/
def fusable? (ahead : Nat) : CompileM (Option Bytecode.Instr) := do
  let c ← read
  if c.config.genericOnly || !c.config.fusion then return none
  if (List.range ahead).any fun k => c.flow.isJumpTarget (c.pc + k + 1) then return none
  return c.function.code[c.pc + ahead]?

/-- The operation takes `n` instructions, so the interpreter resumes after those. -/
def absorb (n : Nat) : CompileM Unit := do
  let pc := (← read).pc
  AsmM.updateSlow ({ · with resumePc := pc + n })

/-! ### Lifecycle -/

/-- Go to the next state of the operation. -/
def advance (next : Lifecycle) : CompileM Unit := do
  let current := (← getThe Compilation).lifecycle
  unless current.canAdvance next do throw (.lifecycle (← read).pc current next)
  modifyThe Compilation fun s => { s with lifecycle := next }

/-- Close an operation or a part of one. -/
def finishStep (emitted : Emitted) : CompileM Unit := do
  advance (match emitted with | .inline => .inlineEmitted | .generic => .genericOnly)
  if ← AsmM.hasExits then throw (.staleExit (← read).pc .noSlowPath)
  advance .guardsLinked
  AsmM.endOp
  advance .rejoined

/-- Close a part of an operation and start the next. -/
def nextStep (emitted : Emitted) : CompileM Unit := do
  finishStep emitted
  FrameM.check
  advance .classified

/-! ### Pins -/

/-- Pin a register; gives it back if it was not pinned before. -/
def pin (r : Reg) : FrameM (List Reg) := do
  if ← FrameM.pin r then return [r] else return []

/-- Undo pins. -/
def unpinAll (pins : List Reg) : FrameM Unit := pins.forM FrameM.unpin

/-- An operand to be read only: an immediate if there is one, or a register that gets pinned. -/
def readOperand (slot : Slot) : Option Int64 → FrameM (Operand × List Reg)
  | some w => return (.imm w, [])
  | none => do
    let r ← FrameM.dataReg slot
    return (.reg r, ← pin r)

/-! ### Stub calls -/

/-- The types that a stub can produce, if they do not depend on its operands. -/
def intrinsicTypes? : Stub → Option TypeFlags
  | .bit .ursh | .pos | .arith .sub => some .number
  | .bit _ | .bitNot => some (.ofKnown .int32)
  | .not | .truth | .compare _ => some (.ofKnown .boolean)
  | .typeOf => some (.ofKnown .string)
  | .newInit | .newObject | .newArray | .initProp | .initMethod | .initElem =>
    some (.ofKnown .object)
  | .arith .add | .getElem | .setElem => none

/-- The types of a stub's result: what it can produce, narrowed by what the oracle says
where the two are compatible. -/
def stubTypes (stub : Stub) : CompileM TypeSet := do
  let pushed ← pushedTypes
  match stub, intrinsicTypes? stub with
  | .newInit, _ | .newObject, _ => return .objects .plain
  | .newArray, _ => return .objects .denseArray
  | _, none => return pushed
  | _, some intrinsic =>
    let flags := pushed.flags.inter intrinsic
    if flags = .none then return .of intrinsic else return ⟨flags, pushed.kind⟩

/-- Compile the operation as one stub call whose result has the given types. -/
def emitStubTyped (stub : Stub) (arg : Int64) (types : TypeSet) : CompileM Emitted := do
  FrameM.syncAndKill
  let _ ← AsmM.callInline stub arg
  AsmM.updateFrame (Frame.popN stub.uses)
  unless stub.defs = 0 do AsmM.updateFrame (·.pushSynced types)
  AsmM.rejoinInline stub.defs
  return .generic

/-- Compile the operation as one stub call. -/
def emitStub (stub : Stub) (arg : Int64) : CompileM Emitted := do
  emitStubTyped stub arg (← stubTypes stub)

/-! ### Results -/

/-- Replace the `n` operands by a constant. -/
def replaceByConstant (n : Nat) (v : Value) : AsmM Unit :=
  AsmM.updateFrame fun f => (Frame.popN n f).pushConstant v

/-- Push the result of an integer operation. -/
def pushInt (res : IntResult) (types : TypeSet) : FrameM Unit := do
  match res.wide, res.tag with
  | some r, _ =>
    FrameM.free res.payload
    let _ ← FrameM.pushDouble r
  | none, some t =>
    let _ ← FrameM.pushRegs t res.payload types
  | none, none =>
    let _ ← FrameM.pushTyped .int32 res.payload

/-- Replace the `n` operands by a boolean in a temporary. -/
def replaceByBoolean (n : Nat) (r : Reg) : AsmM Unit := do
  AsmM.updateFrame (Frame.popN n)
  let _ ← FrameM.pushTyped .boolean r

end CompileM

end FastPath
