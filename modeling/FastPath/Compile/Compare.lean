import FastPath.Compile.Arith
import FastPath.Compile.TypeOf

/-!
# Comparisons

A comparison that is followed by a branch on its outcome is compiled together with it: no
boolean is made, the guarded comparison goes to the target of the branch, and the slow
path branches on what the stub returned.

Comparisons with `null`, `undefined` and, if strict, with a boolean are tests of the tag.
A value compared with itself is decided unless it may be NaN.
-/

namespace FastPath

namespace CompareOp

/-- The comparison of integers. -/
def cond : CompareOp → Cond
  | equality _ false => .equal
  | equality _ true => .notEqual
  | relation op => .signed op

/-- The comparison of doubles: NaN differs from everything and has no order. -/
def doubleCond : CompareOp → DoubleCond
  | equality _ false => ⟨.equal, false⟩
  | equality _ true => ⟨.notEqual, true⟩
  | relation op => ⟨.order op, false⟩

/-- The outcome for two constants, if it needs no conversion. -/
def fold? (op : CompareOp) (a b : Value) : Option Bool :=
  match op, a.double?, b.double? with
  | op, some x, some y => some (op.doubleCond.eval x y)
  | relation _, _, _ => none
  | equality true negated, _, _ => some (strictEquals a b != negated)
  | equality false negated, _, _ =>
    if a.isNullish ∨ b.isNullish then some ((a.isNullish && b.isNullish) != negated)
    else if a.tag = b.tag then some (strictEquals a b != negated)
    else none

end CompareOp

/-- The branch that a comparison is compiled with. -/
structure FusedBranch where
  target : Nat
  /-- Jump when the comparison holds, or when it does not. -/
  onTrue : Bool
deriving DecidableEq, Repr, Inhabited

/-- Operands of a comparison in registers. -/
inductive CompareOperands where
  | int (cond : Cond) (lhs : Reg) (rhs : Operand)
  | double (lhs rhs : FReg)
deriving DecidableEq, Repr, Inhabited

namespace CompileM

open AsmM (frame branch label link linkPc linkExit)

/-- The branch that follows, if it may be compiled along with the comparison. -/
def fusedBranch? : CompileM (Option FusedBranch) := do
  match (← fusable? 1).bind Bytecode.Instr.plainBranch? with
  | some onTrue => return some ⟨← jumpTarget 1, onTrue⟩
  | none => return none

/-- A comparison whose outcome is known. -/
def compareKnown (outcome : Bool) : CompileM (Emitted × Nat) := do
  replaceByConstant 2 (.boolean outcome)
  return (.inline, 0)

/-! ### Finishing a comparison -/

/-- Set a temporary to the outcome. -/
def emitOutcome (op : CompareOp) (operands : CompareOperands) (res : Reg) : AsmM Unit :=
  match operands with
  | .int cond lhs rhs => AsmM.emit .fast (.set cond lhs rhs res)
  | .double lhs rhs => AsmM.emit .fast (.setDouble op.doubleCond lhs rhs res)

/-- Give back double temporaries. -/
def freeDoubles (temps : List FReg) : FrameM Unit := temps.forM FrameM.freeDouble

/-- Make the boolean in a temporary. -/
def finishBoolean (op : CompareOp) (operands : CompareOperands) (res : Reg) (pins : List Reg)
    (temps : List FReg) : CompileM (Emitted × Nat) := do
  emitOutcome op operands res
  let slow ← AsmM.hasExits
  if slow then AsmM.slowCall (.compare op) 0
  freeDoubles temps
  unpinAll pins
  replaceByBoolean 2 res
  if slow then AsmM.rejoin 1
  return (.inline, 0)

/-- The slow path of a comparison and its branch; gives the jump to what follows. -/
def fusedSlowPath (op : CompareOp) (fused : FusedBranch) : CompileM (Option Jump) := do
  if ← AsmM.hasExits then
    AsmM.slowCall (.compare op) 0
    linkPc (← branch .slow (.test fused.onTrue .result (.imm 1))) fused.target
    return some (← branch .slow .always)
  else return none

/-- The slow path has gone on to what follows. The stub keeps no register, so the fast path
keeps none either. -/
def finishFall (fall? : Option Jump) : CompileM Unit := do
  match fall? with
  | some fall =>
    FrameM.syncAndForget
    AsmM.linkRejoin fall
    AsmM.rejoinAtBranch (← frame).sp 0
  | none => return

/-- The guard that takes the branch. -/
def fusedGuard (op : CompareOp) (operands : CompareOperands) (onTrue : Bool) : Guard :=
  match operands with
  | .int cond lhs rhs => .compare (if onTrue then cond else cond.invert) (.reg lhs) rhs
  | .double lhs rhs =>
    .compareDouble (if onTrue then op.doubleCond else op.doubleCond.invert) lhs rhs

/-- Branch on the comparison. -/
def finishFused (op : CompareOp) (operands : CompareOperands) (fused : FusedBranch)
    (pins : List Reg) (temps : List FReg) : CompileM (Emitted × Nat) := do
  let fall? ← fusedSlowPath op fused
  unpinAll pins
  AsmM.updateFrame (Frame.popN 2)
  FrameM.syncAll
  linkPc (← branch .fast (fusedGuard op operands fused.onTrue)) fused.target
  freeDoubles temps
  finishFall fall?
  return (.inline, 1)

/-- Finish a comparison with or without its branch. -/
def finishCompare (op : CompareOp) (operands : CompareOperands) (res : Option Reg)
    (fused : Option FusedBranch) (pins : List Reg) (temps : List FReg) :
    CompileM (Emitted × Nat) :=
  match fused, res with
  | none, some r => finishBoolean op operands r pins temps
  | some b, none => finishFused op operands b pins temps
  | _, _ => fail .resultRegister

/-- A register for the boolean, unless a branch takes its place. -/
def resultReg? (fused : Option FusedBranch) : FrameM (Option Reg) := do
  if fused.isSome then return none else return some (← FrameM.alloc)

/-! ### Comparing payloads and doubles -/

/-- Guard that a slot of unknown type is an integer. -/
def guardIntIfUnknown (slot : Slot) : CompileM Unit := do
  if (← frame).knownType slot = .unknown then linkGuard (← guardTag slot .int32)

/-- Compare payloads: integers behind guards, or booleans or objects by identity. -/
def comparePayloads (op : CompareOp) (lhs rhs : Slot) (fused : Option FusedBranch) :
    CompileM (Emitted × Nat) := do
  let swapped := ((← frame).constant? lhs).isSome
  let (lhs, rhs) := if swapped then (rhs, lhs) else (lhs, rhs)
  let cond := if swapped then op.cond.swap else op.cond
  let lhsReg ← FrameM.dataReg lhs
  let lhsPins ← pin lhsReg
  let (rhsOp, rhsPins) ← readOperand rhs (((← frame).constant? rhs).map (·.payload.toInt64))
  let res ← resultReg? fused
  guardIntIfUnknown lhs
  guardIntIfUnknown rhs
  finishCompare op (.int cond lhsReg rhsOp) res fused (lhsPins ++ rhsPins) []

/-- Compare as doubles. -/
def compareDoubles (op : CompareOp) (lhs rhs : Slot) (fused : Option FusedBranch) :
    CompileM (Emitted × Nat) := do
  let l ← FrameM.copyNumber lhs
  let r ← FrameM.copyNumber rhs
  let res ← resultReg? fused
  linkGuard (← guardNumber lhs)
  linkGuard (← guardNumber rhs)
  finishCompare op (.double l r) res fused [] [l, r]

/-! ### Comparing with null and undefined -/

/-- Branch on whether the tag is among the given ones. -/
def branchAmongTags (tag : Operand) (tags : List Tag) (target : Nat) : AsmM Unit :=
  tags.forM fun t => do linkPc (← AsmM.branchTag .fast tag t) target

/-- Branch on whether the tag is none of the given ones and `last`. -/
def branchOutsideTags (tag : Operand) (tags : List Tag) (last : Tag) (target : Nat) :
    AsmM Unit := do
  let skips ← tags.mapM fun t => AsmM.branchTag .fast tag t
  linkPc (← AsmM.branchNotTag .fast tag last) target
  AsmM.linkAll skips (← label .fast)

/-- Compare a value of unknown type with `null` or `undefined`, and branch. -/
def nullishBranch (x : Slot) (tags : List Tag) (last : Tag) (negated : Bool)
    (fused : FusedBranch) : CompileM (Emitted × Nat) := do
  let tag ← FrameM.tagOperand x
  AsmM.updateFrame (Frame.popN 2)
  FrameM.syncAll
  if fused.onTrue != negated then branchAmongTags tag (tags ++ [last]) fused.target
  else branchOutsideTags tag tags last fused.target
  return (.inline, 1)

/-- Set a temporary to whether the tag is one of one or two. -/
def emitTagAmong (tag : Reg) (first : Tag) (second : Option Tag) (res : Reg) : CompileM Unit := do
  match second with
  | none => AsmM.emit .fast (.set .equal tag (.ofTag first) res)
  | some t =>
    let scratch ← FrameM.alloc
    AsmM.emit .fast (.set .equal tag (.ofTag first) res)
    AsmM.emit .fast (.set .equal tag (.ofTag t) scratch)
    AsmM.emit .fast (.alu (.bit .or) res (.reg scratch))
    FrameM.free scratch

/-- Negate a boolean in a temporary, if it has to be. -/
def negateIf (negated : Bool) (res : Reg) : AsmM Unit :=
  if negated then AsmM.emit .fast (.alu (.bit .xor) res (.imm 1)) else return

/-- Compare a value of unknown type with `null` or `undefined`: its tag is one of one or
two. -/
def nullishTest (x : Slot) (first : Tag) (second : Option Tag) (negated : Bool) :
    CompileM (Emitted × Nat) := do
  let tag ← FrameM.tagReg x
  let pins ← pin tag
  let res ← FrameM.alloc
  emitTagAmong tag first second res
  negateIf negated res
  unpinAll pins
  replaceByBoolean 2 res
  return (.inline, 0)

/-- An equality of which one side is the constant `null` or `undefined`. -/
def compareNullish (strict negated : Bool) (nullish : Value) (x : Slot)
    (fused : Option FusedBranch) : CompileM (Emitted × Nat) := do
  let known := (← frame).knownType x
  if known ≠ .unknown then
    let equal :=
      if strict then known.tag? = some nullish.tag
      else known = .null ∨ known = .undefined
    compareKnown (equal != negated)
  else
    match fused, strict with
    | some b, true => nullishBranch x [] nullish.tag negated b
    | some b, false => nullishBranch x [.null] .undefined negated b
    | none, true => nullishTest x nullish.tag none negated
    | none, false => nullishTest x .null (some .undefined) negated

/-! ### Comparing with a boolean and with itself -/

/-- A strict equality of which one side is a constant boolean. -/
def compareBoolean (negated b : Bool) (x : Slot) : CompileM (Emitted × Nat) := do
  let cond : Cond := if negated then .notEqual else .equal
  let expected : Operand := .imm (if b then 1 else 0)
  match (← frame).knownType x with
  | .boolean =>
    let payload ← FrameM.dataReg x
    let pins ← pin payload
    let res ← FrameM.alloc
    AsmM.emit .fast (.set cond payload expected res)
    unpinAll pins
    replaceByBoolean 2 res
    return (.inline, 0)
  | .unknown =>
    let payload ← FrameM.dataReg x
    let pins ← pin payload
    let res ← FrameM.alloc
    let tag ← FrameM.tagOperand x
    AsmM.emit .fast (.move res (.imm (if negated then 1 else 0)))
    let notBool ← AsmM.branchNotTag .fast tag .boolean
    AsmM.emit .fast (.set cond payload expected res)
    link notBool (← label .fast)
    unpinAll pins
    replaceByBoolean 2 res
    return (.inline, 0)
  | _ => compareKnown negated

/-- Compare a value with itself. -/
def compareSelf (op : CompareOp) (x : Slot) : CompileM (Emitted × Nat) := do
  match (← frame).knownType x, op.isEquality with
  | .double, _ =>
    let src ← FrameM.doubleReg x
    let res ← FrameM.alloc
    AsmM.emit .fast (.setDouble op.doubleCond src src res)
    replaceByBoolean 2 res
    return (.inline, 0)
  | .unknown, true =>
    let payload ← FrameM.dataReg x
    let pins ← pin payload
    let res ← FrameM.alloc
    let tag ← FrameM.tagOperand x
    AsmM.emit .fast (.move res (.imm (if op.isReflexive then 1 else 0)))
    let notDouble ← AsmM.branchNotTag .fast tag .double
    AsmM.emit .fast (.moveBitsToDouble .scratch payload)
    AsmM.emit .fast (.setDouble op.doubleCond .scratch .scratch res)
    link notDouble (← label .fast)
    unpinAll pins
    replaceByBoolean 2 res
    return (.inline, 0)
  | .unknown, false => return (← emitStub (.compare op) 0, 0)
  | .int32, _ => compareKnown op.isReflexive
  | _, true => compareKnown op.isReflexive
  | _, false => return (← emitStub (.compare op) 0, 0)

/-! ### Choosing a form -/

/-- A strict equality of operands whose types are known to differ. -/
def typesDiffer (lt rt : KnownType) : Bool :=
  lt != rt && ((lt.isNonNumber && rt != .unknown) || (rt.isNonNumber && lt != .unknown))

/-- A comparison of operands of which neither decides it. -/
def compareByType (op : CompareOp) (lhs rhs : Slot) (fused : Option FusedBranch) :
    CompileM (Emitted × Nat) := do
  let f ← frame
  let lt := f.knownType lhs
  let rt := f.knownType rhs
  if op.isStrict && typesDiffer lt rt then compareKnown op.isNegated
  else if op.isEquality ∧ lt = rt ∧ (lt = .object ∨ lt = .boolean) then
    comparePayloads op lhs rhs fused
  else if mayBeNumber lt && mayBeNumber rt then
    if lt = .double ∨ rt = .double then compareDoubles op lhs rhs fused
    else comparePayloads op lhs rhs fused
  else return (← emitStub (.compare op) 0, 0)

/-- One side is a constant `null` or `undefined`, the right one if both are: the constant
and the other side. -/
def nullishOperand? (f : Frame) (lhs rhs : Slot) : Option (Value × Slot) :=
  match f.constant? lhs, f.constant? rhs with
  | _, some .null => some (.null, lhs)
  | _, some .undefined => some (.undefined, lhs)
  | some .null, _ => some (.null, rhs)
  | some .undefined, _ => some (.undefined, rhs)
  | _, _ => none

/-- One side is a constant boolean: the constant and the other side. -/
def booleanOperand? (f : Frame) (lhs rhs : Slot) : Option (Bool × Slot) :=
  match f.constant? lhs, f.constant? rhs with
  | _, some (.boolean b) => some (b, lhs)
  | some (.boolean b), _ => some (b, rhs)
  | _, _ => none

/-- The outcome of a comparison of two constants. -/
def foldCompare? (f : Frame) (op : CompareOp) (lhs rhs : Slot) : Option Bool :=
  match f.constant? lhs, f.constant? rhs with
  | some a, some b => op.fold? a b
  | _, _ => none

/-- Compare the two top entries. Gives the number of instructions absorbed. -/
def compare (op : CompareOp) : CompileM (Emitted × Nat) := do
  let f ← frame
  let lhs := f.peek 2
  let rhs := f.peek 1
  let fused ← fusedBranch?
  match foldCompare? f op lhs rhs, op, nullishOperand? f lhs rhs, booleanOperand? f lhs rhs with
  | some outcome, _, _, _ => compareKnown outcome
  | none, .equality strict negated, some (v, x), _ => compareNullish strict negated v x fused
  | none, .equality true negated, _, some (b, x) => compareBoolean negated b x
  | none, _, _, _ =>
    if (f.constant? rhs).isNone && f.sameBacking lhs rhs then compareSelf op lhs
    else compareByType op lhs rhs fused

end CompileM

end FastPath
