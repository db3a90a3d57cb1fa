import FastPath.Compile.Guard

/-!
# Literals

A literal is created by a stub; the frame then remembers which literal is under
construction. A property of a template goes straight to its slot, and an element within
the declared length straight to its place. Other initializers call their stub.
-/

namespace FastPath

namespace CompileM

open AsmM (frame)

/-- Open a literal. -/
def newLiteral (stub : Stub) (arg : Nat) (init : InitTarget) : CompileM Emitted := do
  let emitted ← emitStub stub (Int64.ofNat arg)
  AsmM.updateFrame fun f => f.setInitTarget (f.peek 1) (some init)
  return emitted

/-- An initializer through its stub. The literal stays on the stack with what is known
about it. -/
def initGeneric (stub : Stub) (arg : Nat) : CompileM Emitted := do
  FrameM.syncAndKill
  let _ ← AsmM.callInline stub (Int64.ofNat arg)
  AsmM.updateFrame (Frame.popN (stub.uses - 1))
  AsmM.rejoinInline 1
  return .generic

/-- The slot that the template of a literal gives to a name. -/
def templateSlot? (function : Bytecode.Function) (init : Option InitTarget) (name : Nat) :
    Option Nat :=
  match init with
  | some (.object t) => (function.template? t).bind (·.slotOf? name)
  | _ => none

/-- Define a property of a literal. -/
def initProp (name : Nat) : CompileM Emitted := do
  let c ← read
  let f ← frame
  let obj := f.peek 2
  let value := f.peek 1
  let slot? :=
    if c.config.genericOnly then none else templateSlot? c.function (f.initTarget? obj) name
  match slot? with
  | none => initGeneric .initProp name
  | some slot =>
    let objReg ← FrameM.dataReg obj
    let pins ← pin objReg
    let source ← FrameM.source value
    AsmM.emit .fast (.storeNamed objReg slot source)
    FrameM.unpinSource source
    unpinAll pins
    AsmM.updateFrame Frame.pop
    return .inline

/-- A constant index within the declared length of an array literal. -/
def literalIndex? (f : Frame) (obj key : Slot) : Option Int32 :=
  match f.initTarget? obj, f.int32Constant? key with
  | some (.array length), some i => if 0 ≤ i.toInt ∧ i.toInt < length then some i else none
  | _, _ => none

/-- Define an element of a literal. The initialized length grows to cover it, unless an
earlier initializer has pushed it further. -/
def initElem : CompileM Emitted := do
  let c ← read
  let f ← frame
  let obj := f.peek 3
  let isLast := c.function.code[c.pc + 1]? = some .endInit
  let index? := if c.config.genericOnly then none else literalIndex? f obj (f.peek 2)
  match index? with
  | none => initGeneric .initElem (if isLast then 1 else 0)
  | some i =>
    let objReg ← FrameM.dataReg obj
    let pins ← pin objReg
    let source ← FrameM.source (f.peek 1)
    AsmM.emit .fast (.storeElement objReg (.constant i) source)
    let covered ←
      AsmM.branch .fast (.extent .initializedLength objReg (.constant i) (.unsigned .gt))
    AsmM.emit .fast (.storeExtent objReg .initializedLength (.imm (i.toInt64 + 1)))
    AsmM.link covered (← AsmM.label .fast)
    FrameM.unpinSource source
    unpinAll pins
    AsmM.updateFrame (Frame.popN 2)
    return .inline

end CompileM

end FastPath
