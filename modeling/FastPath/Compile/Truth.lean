import FastPath.Compile.Guard

/-!
# Truthiness

Logical negation and the conditional jumps. What the type decides is decided here;
booleans are tested in line, integers and objects of unknown type out of line, and
everything else by a stub.
-/

namespace FastPath

namespace CompileM

open AsmM (frame branch label link linkPc linkExit)

/-- The truthiness that is known of a slot. -/
def knownTruth? (heap : Heap) (f : Frame) (slot : Slot) : Option Bool :=
  match f.constant? slot with
  | some v => (heap.toBoolean v).toOption
  | none =>
    match f.knownType slot with
    | .null | .undefined => some false
    | .object => some true
    | _ => none

/-! ### Negation -/

/-- Negation of a value of unknown type. -/
def notUnknown (x : Slot) : CompileM Emitted := do
  let payload ← FrameM.dataReg x
  let pins ← pin payload
  let res ← FrameM.alloc
  let tag ← FrameM.tagOperand x
  let notBool ← AsmM.branchNotTag .fast tag .boolean
  AsmM.emit .fast (.move res (.reg payload))
  AsmM.emit .fast (.alu (.bit .xor) res (.imm 1))
  let done ← label .fast
  link notBool (← label .slow)
  let notInt ← AsmM.branchNotTag .slow tag .int32
  AsmM.emit .slow (.set .equal payload (.imm 0) res)
  let intBack ← branch .slow .always
  link notInt (← label .slow)
  let notObject ← AsmM.branchNotTag .slow tag .object
  AsmM.emit .slow (.move res (.imm 0))
  let objectBack ← branch .slow .always
  link intBack done
  link objectBack done
  linkExit notObject
  AsmM.slowCall .not 0
  unpinAll pins
  replaceByBoolean 1 res
  AsmM.rejoin 1
  return .inline

/-- Logical negation. -/
def not : CompileM Emitted := do
  let f ← frame
  let x := f.peek 1
  let heap := (← read).heap
  match (f.constant? x).bind fun v => (heap.toBoolean v).toOption with
  | some b =>
    replaceByConstant 1 (.boolean (!b))
    return .inline
  | none =>
    match f.knownType x with
    | .boolean =>
      let res ← FrameM.copyData x
      AsmM.emit .fast (.alu (.bit .xor) res (.imm 1))
      replaceByBoolean 1 res
      return .inline
    | .int32 =>
      let src ← FrameM.dataReg x
      let pins ← pin src
      let res ← FrameM.alloc
      AsmM.emit .fast (.set .equal src (.imm 0) res)
      unpinAll pins
      replaceByBoolean 1 res
      return .inline
    | .double =>
      let src ← FrameM.doubleReg x
      let res ← FrameM.alloc
      AsmM.emit .fast (.zeroDouble .scratch)
      AsmM.emit .fast (.setDouble ⟨.equal, true⟩ src .scratch res)
      replaceByBoolean 1 res
      return .inline
    | .object =>
      replaceByConstant 1 (.boolean false)
      return .inline
    | .unknown => notUnknown x
    | .string | .null | .undefined => emitStub .not 0

/-! ### Conditional jumps -/

/-- Branch on the word that a stub returned. -/
def branchOnResult (stream : Stream) (onTrue : Bool) (target : Nat) : AsmM Unit := do
  linkPc (← branch stream (.test onTrue .result (.imm 1))) target

/-- A conditional jump through the stub. -/
def branchGeneric (onTrue : Bool) (target : Nat) : CompileM Emitted := do
  FrameM.syncAndKill
  let _ ← AsmM.callInline .truth 0
  branchOnResult .fast onTrue target
  AsmM.updateFrame Frame.pop
  AsmM.rejoinInline 0
  return .generic

/-- A conditional jump whose outcome is known. -/
def branchKnown (kind : BranchKind) (truthy : Bool) (target : Nat) : CompileM Emitted := do
  unless kind.keepsValue do AsmM.updateFrame Frame.pop
  if truthy = kind.jumpsOn then
    FrameM.syncAll
    linkPc (← branch .fast .always) target
  if kind.keepsValue then AsmM.updateFrame Frame.pop
  return .inline

/-- A conditional jump on a value of unknown type. The slow paths go to the target
themselves, so the fall-through keeps none of the registers they may have changed. -/
def branchUnknown (x : Slot) (onTrue : Bool) (target : Nat) : CompileM Emitted := do
  let payload ← FrameM.dataReg x
  let tag ← FrameM.tagOperand x
  FrameM.syncAll
  let notBool ← AsmM.branchNotTag .fast tag .boolean
  linkPc (← branch .fast (.test onTrue payload (.imm 1))) target
  link notBool (← label .slow)
  let notInt ← AsmM.branchNotTag .slow tag .int32
  linkPc (← branch .slow (.test onTrue payload (.imm 0xFFFFFFFF))) target
  let intFall ← branch .slow .always
  link notInt (← label .slow)
  let _ ← AsmM.call .truth 0
  branchOnResult .slow onTrue target
  let callFall ← branch .slow .always
  AsmM.updateFrame Frame.pop
  FrameM.syncAndForget
  AsmM.linkRejoin intFall
  AsmM.linkRejoin callFall
  AsmM.rejoinAtBranch (← frame).sp 0
  return .inline

/-- A conditional jump. -/
def branchOn (kind : BranchKind) : CompileM Emitted := do
  let target ← jumpTarget 0
  let onTrue := kind.jumpsOn
  let c ← read
  if c.config.genericOnly then branchGeneric onTrue target
  else
    let f ← frame
    let x := f.peek 1
    match knownTruth? c.heap f x, f.knownType x with
    | some truthy, _ => branchKnown kind truthy target
    | none, .boolean =>
      let r ← FrameM.dataReg x
      FrameM.syncAll
      linkPc (← branch .fast (.test onTrue r (.imm 1))) target
      AsmM.updateFrame Frame.pop
      return .inline
    | none, .int32 =>
      let r ← FrameM.dataReg x
      FrameM.syncAll
      linkPc (← branch .fast (.test onTrue r (.imm 0xFFFFFFFF))) target
      AsmM.updateFrame Frame.pop
      return .inline
    | none, .double =>
      let r ← FrameM.doubleReg x
      FrameM.syncAll
      AsmM.emit .fast (.zeroDouble .scratch)
      let cond : DoubleCond := if onTrue then ⟨.notEqual, false⟩ else ⟨.equal, true⟩
      linkPc (← branch .fast (.compareDouble cond r .scratch)) target
      AsmM.updateFrame Frame.pop
      return .inline
    | none, .unknown => branchUnknown x onTrue target
    | none, _ => branchGeneric onTrue target

end CompileM

end FastPath
