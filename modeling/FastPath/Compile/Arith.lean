import FastPath.Compile.Guard

/-!
# Addition, subtraction and unary plus

If both operands may be integers the payloads are combined behind tag guards and an
overflow check. If one is known to be a number that need not be an integer both are
loaded as doubles. Everything else goes to the stub.
-/

namespace FastPath

namespace CompileM

open AsmM (frame branch linkExit)

/-- A number or of unknown type. -/
def mayBeNumber (t : KnownType) : Bool := t.isNumber || t = .unknown

/-- Combine two numbers as doubles. -/
def arithDouble (op : ArithOp) (lhs rhs : Slot) : CompileM Emitted := do
  let res ← FrameM.copyNumber lhs
  let src ← FrameM.copyNumber rhs
  linkGuard (← guardNumber lhs)
  linkGuard (← guardNumber rhs)
  AsmM.emit .fast (.aluDouble op res src)
  let slow ← AsmM.hasExits
  if slow then AsmM.slowCall (.arith op) 0
  FrameM.freeDouble src
  AsmM.updateFrame (Frame.popN 2)
  let _ ← FrameM.pushDouble res
  if slow then AsmM.rejoin 1
  return .inline

/-- Registers for a result of the given type: a double, of unknown tag, or an integer. -/
def intResult (payload : Reg) (known : KnownType) : FrameM IntResult := do
  if known = .double then return ⟨payload, some (← FrameM.allocDouble), none⟩
  else if known = .unknown then return ⟨payload, none, some (← FrameM.alloc)⟩
  else return ⟨payload, none, none⟩

/-- Complete a result of which only the payload has been computed. -/
def completeInt (res : IntResult) : AsmM Unit := do
  match res.wide, res.tag with
  | some r, _ => AsmM.emit .fast (.int32ToDouble r res.payload)
  | none, some r => AsmM.emit .fast (.move r (.ofTag .int32))
  | none, none => return

/-- Combine two payloads as integers. -/
def arithInt (op : ArithOp) (lhs rhs : Slot) (types : TypeSet) : CompileM Emitted := do
  let payload ← FrameM.copyData lhs
  let (src, pins) ← readOperand rhs (((← frame).int32Constant? rhs).map (·.toInt64))
  let res ← intResult payload types.knownType
  linkGuard (← guardTag lhs .int32)
  linkGuard (← guardTag rhs .int32)
  linkExit (← branch .fast (.checked op payload src))
  completeInt res
  AsmM.slowCall (.arith op) 0
  unpinAll pins
  AsmM.updateFrame (Frame.popN 2)
  pushInt res types
  AsmM.rejoin 1
  return .inline

/-- An additive operator on the two top entries, with a result of the given types. An
addition with an operand of unknown type may concatenate, which a double cannot hold. -/
def arith (op : ArithOp) (types : TypeSet) : CompileM Emitted := do
  let f ← frame
  let lhs := f.peek 2
  let rhs := f.peek 1
  match f.numberConstant? lhs, f.numberConstant? rhs with
  | some a, some b =>
    replaceByConstant 2 (.number (op.onDoubles a b))
    return .inline
  | _, _ =>
    let lt := f.knownType lhs
    let rt := f.knownType rhs
    let known := types.knownType
    if !(mayBeNumber lt && mayBeNumber rt) || known.isNonNumber then
      emitStubTyped (.arith op) 0 types
    else if lt = .double ∨ rt = .double then
      let untyped := lt = .unknown ∨ rt = .unknown
      if op = .add ∧ untyped ∧ !known.isNumber then emitStubTyped (.arith op) 0 types
      else arithDouble op lhs rhs
    else arithInt op lhs rhs types

/-- An additive operator. -/
def arithOp (op : ArithOp) : CompileM Emitted := do arith op (← stubTypes (.arith op))

/-- Unary plus of a value of unknown type. The stub writes the slot in place, so the
slot's memory must have the value on both paths. -/
def posUnknown (x : Slot) : CompileM Emitted := do
  FrameM.syncEntry x
  linkGuard (← guardNumber x)
  AsmM.slowCall .pos 0
  AsmM.updateFrame fun f => f.pop.pushSynced (.of .number)
  AsmM.rejoin 1
  return .inline

/-- Unary plus. -/
def pos : CompileM Emitted := do
  let f ← frame
  let x := f.peek 1
  let heap := (← read).heap
  let folded := (f.constant? x).bind fun v => (heap.pos v).toOption
  match folded, f.knownType x with
  | _, .int32 | _, .double => return .inline
  | some v, _ =>
    replaceByConstant 1 v
    return .inline
  | none, .unknown => posUnknown x
  | none, _ => emitStub .pos 0

end CompileM

end FastPath
