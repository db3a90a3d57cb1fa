import FastPath.Code.Link
import FastPath.Compile.Bump
import FastPath.Compile.Compare
import FastPath.Compile.Element
import FastPath.Compile.Integer
import FastPath.Compile.Literal
import FastPath.Compile.Truth

/-!
# The compiler

A function is compiled in one pass over its reachable instructions. Where a jump lands,
the frame returns to its canonical form, so that all paths agree on it. After each
operation the frame must be consistent and the stack must have changed as the bytecode
says.
-/

namespace FastPath

namespace CompileM

open AsmM (frame)

/-! ### Single operations -/

/-- Push a constant. -/
def pushConstant (v : Value) : CompileM Emitted := do
  AsmM.updateFrame (·.pushConstant v)
  return .inline

/-- The value of a literal operand. Strings must have been interned. -/
def literalValue : Bytecode.Literal → CompileM Value
  | .undefined => return .undefined
  | .null => return .null
  | .bool b => return .boolean b
  | .int32 i => return .int32 i
  | .double c => do
    match (← read).function.numberConstant? c.toNat with
    | some d => return .double d
    | none => fail (.notANumber c.toNat)
  | .string c => do
    let ctx ← read
    match ctx.function.stringConstant? c.toNat with
    | none => fail (.notAString c.toNat)
    | some text =>
      match ctx.heap.findString? text with
      | some s => return .string s
      | none => throw (.unlinkedString ctx.pc)

/-- An unconditional jump. -/
def goto : CompileM Emitted := do
  let target ← jumpTarget 0
  FrameM.syncAll
  AsmM.linkPc (← AsmM.branch .fast .always) target
  return .inline

/-- Return the top. -/
def ret : CompileM Emitted := do
  let value ← FrameM.source ((← frame).peek 1)
  AsmM.emit .fast (.ret value)
  FrameM.unpinSource value
  AsmM.updateFrame Frame.pop
  return .inline

/-- The stub of an operation that is nothing but a stub call when nothing is inlined. -/
def genericStub? : Bytecode.Instr → Option Stub
  | .arith op => some (.arith op)
  | .pos => some .pos
  | .bit op => some (.bit op)
  | .bitNot => some .bitNot
  | .compare op => some (.compare op)
  | .not => some .not
  | .typeOf => some .typeOf
  | .getElem => some .getElem
  | .setElem => some .setElem
  | _ => none

/-- An operation compiled by itself. -/
def single (x : CompileM Emitted) : CompileM (Emitted × Nat) := return (← x, 0)

/-- An operation that only changes the frame. -/
def frameOnly (x : FrameM Unit) : CompileM (Emitted × Nat) := do
  x
  return (.inline, 0)

/-- Compile an operation inline. Gives the number of further instructions absorbed. -/
def emitInline (i : Bytecode.Instr) : CompileM (Emitted × Nat) :=
  match i with
  | .nop | .loopHead => frameOnly (return ())
  | .push l => single do pushConstant (← literalValue l)
  | .get v => frameOnly (FrameM.update (·.pushVar v))
  | .set v => frameOnly (FrameM.storeVar v false)
  | .bump form v => bump form v
  | .pop => frameOnly (FrameM.update Frame.pop)
  | .dup => frameOnly (FrameM.update Frame.dup)
  | .swap => frameOnly FrameM.swap
  | .arith op => single (arithOp op)
  | .pos => single pos
  | .bit op => single (bitOp op)
  | .bitNot => single bitNot
  | .compare op => compare op
  | .not => single not
  | .typeOf => typeOf
  | .goto _ => single goto
  | .branch kind _ => single (branchOn kind)
  | .getElem => single getElem
  | .setElem => single setElem
  | .newInit => single (newLiteral .newInit 0 .empty)
  | .newObject t => single (newLiteral .newObject t.toNat (.object t.toNat))
  | .newArray n => single (newLiteral .newArray n.toNat (.array n.toNat))
  | .initProp name => single (initProp name.toNat)
  | .initMethod name => single (initGeneric .initMethod name.toNat)
  | .initElem => single initElem
  | .endInit => frameOnly (FrameM.update fun f => f.setInitTarget (f.peek 1) none)
  | .ret => single ret
  | .returnUndefined => single do
    AsmM.emit .fast (.ret (.constant .undefined))
    return .inline

/-- Compile an operation. -/
def emit (i : Bytecode.Instr) : CompileM (Emitted × Nat) := do
  match (← read).config.genericOnly, genericStub? i with
  | true, some stub => single (emitStub stub 0)
  | _, _ => emitInline i

/-- The net effect of the instructions from `pc` on, of which there are `n`. -/
def effectOf (code : Array Bytecode.Instr) (pc n : Nat) : Int :=
  (code.extract pc (pc + n)).toList.foldr (fun i sum => i.stackEffect.delta + sum) 0

/-- Compile the instruction at the current pc, which the stack reaches at the given depth.
Gives the number of further instructions absorbed. -/
def compileOp (i : Bytecode.Instr) (depth : Nat) : CompileM Nat := do
  let c ← read
  modifyThe Compilation fun s => { s with lifecycle := .unanalyzed }
  let monitored :=
    if c.oracle.monitored c.pc then some (c.oracle.pushed c.pc).flags.bits else none
  AsmM.updateSlow (·.beginOp c.pc (c.pc + 1) monitored)
  advance .classified
  let (emitted, absorbed) ← emit i
  finishStep emitted
  FrameM.check
  let expected := effectOf c.function.code c.pc (absorbed + 1)
  let found := ((← frame).depth : Int) - depth
  unless expected = found do throw (.effectMismatch c.pc i.opcode expected found)
  return absorbed

/-! ### Whole functions -/

/-- Bring the frame into the form in which the instruction at the current pc expects it.
`live` tells whether control falls in from the instruction before. -/
def enter (depth : Nat) (live : Bool) : CompileM Unit := do
  let c ← read
  AsmM.updateFrame fun f => { f with pc := c.pc }
  if !live then AsmM.updateFrame (·.reset depth)
  else if c.flow.isJumpTarget c.pc then FrameM.syncAndForget
  let found := (← frame).depth
  unless found = depth do throw (.flow (.depthMismatch c.pc depth found))
  let start ← AsmM.label .fast
  modifyThe Compilation fun s => { s with labels := s.labels.setIfInBounds c.pc (some start) }

/-- Compile the instructions from `pc` on. -/
def compileFrom (function : Bytecode.Function) (pc : Nat) (live : Bool) : CompileM Unit := do
  if h : pc < function.code.size then
    match (← read).flow.depth? pc with
    | none => compileFrom function (pc + 1) false
    | some depth =>
      let absorbed ← withReader ({ · with pc }) do
        enter depth live
        compileOp function.code[pc] depth
      let last := function.code[pc + absorbed]?.getD function.code[pc]
      compileFrom function (pc + absorbed + 1) (!last.isTerminator)
  else if live then throw (.flow (.fallsOffEnd (function.code.size - 1)))
termination_by function.code.size - pc

end CompileM

namespace Compilation

/-- Nothing compiled yet. -/
def start (c : Context) : Compilation :=
  let f := c.function
  let args := (List.range f.paramCount).map fun i => c.oracle.var (.arg (UInt16.ofNat i))
  let locals := (List.range f.localCount).map fun i => c.oracle.var (.loc (UInt16.ofNat i))
  let frame := Frame.new f.paramCount f.localCount (args ++ locals).toArray c.flow.maxDepth
  { asm := ⟨frame, .empty, .empty⟩
    caches := #[]
    queries := #[]
    labels := Array.replicate f.code.size none
    lifecycle := .unanalyzed }

/-- The site of a completed call. -/
def siteOf (fastLength : Nat) (c : PendingCall) : Except CompileError RejoinSite :=
  match c.spAfter with
  | none => .error (.violation c.pc .callNeverCompleted)
  | some spAfter => .ok
    { pc := c.pc
      resumePc := c.resumePc
      call := c.call.position fastLength
      sp := c.sp
      spAfter
      changes := c.changes
      rejoin := c.rejoin.map (·.position fastLength)
      monitored := c.monitored }

/-- Link the code and lay out its tables. -/
def finish (s : Compilation) (c : Context) : Except CompileError Code := do
  let (insts, fastLength) ← s.asm.buffer.finish s.labels
  let sites ← s.asm.slow.calls.mapM (siteOf fastLength)
  let f := c.function
  return {
    name := f.displayName
    insts
    fastLength
    pcOffsets := s.labels.map (·.map (·.position fastLength))
    sites
    caches := s.caches.map (·.map (·.position fastLength))
    argCount := f.paramCount
    localCount := f.localCount
    frameSize := max s.asm.frame.maxSp (f.paramCount + f.localCount + c.flow.maxDepth) + 1
    cacheLimit := c.config.cacheLimit }

end Compilation

/-- What compiling a function gives: its code, and the questions put to the hoister. -/
structure Compiled where
  code : Code
  queries : Array HoistQuery
deriving Repr, Inhabited

/-- Compile a function whose control flow is known. -/
def compileWith (c : Context) : Except CompileError Compiled :=
  match CompileM.compileFrom c.function 0 true c (.start c) with
  | .error e _ => .error e
  | .ok () s => (s.finish c).map fun code => ⟨code, s.queries⟩

/-- Compile a function to run on a heap. -/
def compile (function : Bytecode.Function) (heap : Heap) (oracle : Oracle) (hoister : Hoister)
    (config : Config) : Except CompileError Compiled :=
  match function.validate with
  | .error e => .error (.bytecode e)
  | .ok () =>
    match Bytecode.Flow.analyze function with
    | .error e => .error (.flow e)
    | .ok flow => compileWith ⟨function, heap, oracle, hoister, config, flow, 0⟩

end FastPath
