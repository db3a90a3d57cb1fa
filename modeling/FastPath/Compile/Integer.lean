import FastPath.Compile.Guard

/-!
# Bitwise operators

The operands are converted to 32-bit integers behind guards. All registers are allocated
before the first guard, since allocation may evict. A number out of range is tried once
more, moved by `2 ^ 32` towards zero, before the stub is called.
-/

namespace FastPath

/-- How an operand becomes a 32-bit integer in its register. -/
inductive IntPlan where
  /-- It is one already. -/
  | ready
  /-- Truncate the number in a double temporary. -/
  | truncate (r : FReg)
  /-- Test the tag: an integer is taken as it is, a double is truncated. -/
  | tagged (slot : Slot) (payload : Reg)
deriving DecidableEq, Repr, Inhabited

namespace CompileM

open AsmM (frame branch label link linkExit)

/-- The operand can be converted to an integer without calling a stub. -/
def isIntConvertible (f : Frame) (slot : Slot) : Bool :=
  match f.constant? slot with
  | some v => v.isNumber
  | none =>
    match f.knownType slot with
    | .int32 | .double | .unknown => true
    | _ => false

/-- The immediate that a number converts to. -/
def intImmediate (d : Double) : Operand := .imm d.toInt32.toInt64

/-- Registers for the conversion of a value that is not known to be an integer. -/
def planConversion (slot : Slot) : FrameM (Reg × IntPlan × List Reg) := do
  if (← FrameM.frame).knownType slot = .double then
    let src ← FrameM.copyNumber slot
    let dst ← FrameM.alloc
    return (dst, .truncate src, [])
  else
    let payload ← FrameM.dataReg slot
    let pins ← pin payload
    let dst ← FrameM.alloc
    return (dst, .tagged slot payload, pins)

/-- A temporary for the converted operand, which may be overwritten. -/
def planOwned (slot : Slot) : FrameM (Reg × IntPlan × List Reg) := do
  let f ← FrameM.frame
  match f.numberConstant? slot, f.knownType slot with
  | some d, _ => return (← FrameM.loadTemp (intImmediate d), .ready, [])
  | none, .int32 => return (← FrameM.copyData slot, .ready, [])
  | none, _ => planConversion slot

/-- The converted operand, to be read only. -/
def planRead (slot : Slot) : FrameM (Operand × IntPlan × List Reg) := do
  let f ← FrameM.frame
  match f.numberConstant? slot, f.knownType slot with
  | some d, _ => return (intImmediate d, .ready, [])
  | none, .int32 =>
    let r ← FrameM.dataReg slot
    return (.reg r, .ready, ← pin r)
  | none, _ =>
    let (r, plan, pins) ← planConversion slot
    return (.reg r, plan, pins)

/-- Move a number by `2 ^ 32` towards zero. -/
def moveTowardsZero (src : FReg) : AsmM Unit := do
  AsmM.emit .slow (.zeroDouble .scratch)
  let negative ← branch .slow (.compareDouble ⟨.order .lt, false⟩ src .scratch)
  AsmM.emit .slow (.moveDoubleImm .scratch Double.twoPow32.neg)
  let positive ← branch .slow .always
  link negative (← label .slow)
  AsmM.emit .slow (.moveDoubleImm .scratch Double.twoPow32)
  link positive (← label .slow)
  AsmM.emit .slow (.aluDouble .add src .scratch)

/-- Try a number out of range once more, moved by `2 ^ 32` towards zero; only an exact
result counts. -/
def retryTruncation (failed : Jump) (src : FReg) (dst : Reg) (done : Label) : AsmM Unit := do
  link failed (← label .slow)
  moveTowardsZero src
  let inexact ← branch .slow (.convert src dst)
  let back ← branch .slow .always
  linkExit inexact
  link back done

/-- Emit the conversion of an operand. -/
def applyPlan (plan : IntPlan) (dst : Reg) : AsmM Unit := do
  match plan with
  | .ready => return
  | .truncate src =>
    let failed ← branch .fast (.truncate src dst)
    let done ← label .fast
    retryTruncation failed src dst done
  | .tagged slot payload =>
    let tag ← FrameM.tagOperand slot
    let notInt ← AsmM.branchNotTag .fast tag .int32
    AsmM.emit .fast (.move dst (.reg payload))
    let done ← label .fast
    link notInt (← label .slow)
    let notDouble ← AsmM.branchNotTag .slow tag .double
    AsmM.emit .slow (.moveBitsToDouble .scratch payload)
    let failed ← branch .slow (.truncate .scratch dst)
    let back ← branch .slow .always
    linkExit notDouble
    linkExit failed
    link back done

/-- Give back the double temporary of a plan. -/
def freePlan : IntPlan → FrameM Unit
  | .truncate r => FrameM.freeDouble r
  | _ => return

/-- Give back the registers of an operand that was only read. -/
def releaseRead (operand : Operand) (plan : IntPlan) : CompileM Unit := do
  freePlan plan
  match operand, plan with
  | _, .ready => return
  | .reg r, _ => FrameM.free r
  | _, _ => fail .convertedWithoutRegister

/-- The right operand, which may be the same value as the left one. -/
def planRight (shared : Bool) (lhs : Reg) (rhs : Slot) : FrameM (Operand × IntPlan × List Reg) :=
  if shared then return (.reg lhs, .ready, []) else planRead rhs

/-- Emit the conversion of an operand that is only read. -/
def applyRead (operand : Operand) (plan : IntPlan) : AsmM Unit :=
  match operand with
  | .reg r => applyPlan plan r
  | _ => return

/-- Registers for the result. -/
def bitResult (payload : Reg) (isWide : Bool) : FrameM IntResult := do
  if isWide then return ⟨payload, some (← FrameM.allocDouble), none⟩
  else return ⟨payload, none, none⟩

/-- Bring an unsigned result into the range of its register. -/
def fitUnsigned (res : IntResult) : AsmM Unit := do
  match res.wide with
  | some r => AsmM.emit .fast (.uint32ToDouble r res.payload)
  | none => linkExit (← branch .fast (.compare (.signed .lt) (.reg res.payload) (.imm 0)))

/-- Emit the operation itself on converted operands. -/
def emitBitOp (op : BitOp) (res : Reg) (rhs : Operand) : AsmM Unit :=
  if rhs = .imm 0 ∧ op.zeroIsIdentity then return
  else AsmM.emit .fast (.alu (.bit op) res rhs)

/-- The inline form of a binary bitwise operator. A shift amount that is known keeps the
result of an unsigned shift in range; otherwise the result is a double, or an integer
behind a guard if the oracle promises one. -/
def bitOpInline (op : BitOp) (lhs rhs : Slot) (shift : Option Int32) : CompileM Emitted := do
  let f ← frame
  let types ← pushedTypes
  let isUnsigned : Bool := op = .ursh ∧ shift.isNone
  let (payload, lhsPlan, lhsPins) ← planOwned lhs
  let shared := (f.constant? rhs).isNone && f.sameBacking lhs rhs
  let (rhsOp, rhsPlan, rhsPins) ← planRight shared payload rhs
  let res ← bitResult payload (isUnsigned && types.knownType ≠ .int32)
  applyPlan lhsPlan payload
  applyRead rhsOp rhsPlan
  emitBitOp op payload rhsOp
  if isUnsigned then fitUnsigned res
  let slow ← AsmM.hasExits
  if slow then AsmM.slowCall (.bit op) 0
  releaseRead rhsOp rhsPlan
  freePlan lhsPlan
  unpinAll (lhsPins ++ rhsPins)
  AsmM.updateFrame (Frame.popN 2)
  pushInt res types
  if slow then AsmM.rejoin 1
  return .inline

/-- A binary bitwise operator. An unsigned shift by zero may leave the range of integers,
so it goes to the stub. -/
def bitOp (op : BitOp) : CompileM Emitted := do
  let f ← frame
  let lhs := f.peek 2
  let rhs := f.peek 1
  match f.numberConstant? lhs, f.numberConstant? rhs with
  | some a, some b =>
    replaceByConstant 2 (op.apply a.toInt32 b.toInt32)
    return .inline
  | _, b =>
    let shift := b.map fun d => d.toInt32 &&& 31
    if !isIntConvertible f lhs || !isIntConvertible f rhs then emitStub (.bit op) 0
    else if op = .ursh ∧ shift = some 0 then emitStub (.bit op) 0
    else if op.isCommutative && (f.constant? lhs).isSome then bitOpInline op rhs lhs shift
    else bitOpInline op lhs rhs shift

/-- Bitwise complement. -/
def bitNot : CompileM Emitted := do
  let f ← frame
  let x := f.peek 1
  match f.numberConstant? x with
  | some d =>
    replaceByConstant 1 (.int32 (~~~d.toInt32))
    return .inline
  | none =>
    if !isIntConvertible f x then emitStub .bitNot 0
    else
      let (res, plan, pins) ← planOwned x
      applyPlan plan res
      AsmM.emit .fast (.bitNot res)
      let slow ← AsmM.hasExits
      if slow then AsmM.slowCall .bitNot 0
      freePlan plan
      unpinAll pins
      AsmM.updateFrame Frame.pop
      let _ ← FrameM.pushTyped .int32 res
      if slow then AsmM.rejoin 1
      return .inline

end CompileM

end FastPath
