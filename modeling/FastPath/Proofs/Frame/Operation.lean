import FastPath.Proofs.Frame.Denotation
import FastPath.Proofs.Frame.Sample

/-!
# The operations of the tracker

The operations of the tracker, what they do to the array of values that a frame stands for,
and what has to hold for them to do it: slots are below the stack pointer, pops stay within
the operand stack, and what is pushed has the type that is claimed for it.
-/

namespace FastPath

/-- An operation of the tracker. -/
inductive Operation where
  | pushConstant (v : Value)
  | pushTyped (t : KnownType) (r : Reg)
  | pushDouble (r : FReg)
  | pushRegs (tag payload : Reg) (types : TypeSet)
  | pushSynced (types : TypeSet)
  | pushCopy (s : Slot)
  | pushVar (v : Bytecode.Var)
  | dup
  | pop
  | popN (n : Nat)
  | alloc
  | allocDouble
  | take (r : Reg)
  | free (r : Reg)
  | freeDouble (r : FReg)
  | dataReg (s : Slot)
  | tagReg (s : Slot)
  | doubleReg (s : Slot)
  | copyData (s : Slot)
  | copyTag (s : Slot)
  | copyNumber (s : Slot)
  | source (s : Slot)
  | unpinSource (src : Source)
  | uncopy (s : Slot)
  | separate (lhs rhs : Slot)
  | store (t s : Slot)
  | storeVar (v : Bytecode.Var) (popped : Bool)
  | shimmy (n : Nat)
  | swap
  | syncEntry (s : Slot)
  | syncAll
  | syncAndKill
  | learnType (s : Slot) (t : KnownType)
deriving DecidableEq

namespace Operation

/-- What an operation returns. -/
inductive Answer where
  | done
  | slot (s : Slot)
  | reg (r : Reg)
  | freg (r : FReg)
  | source (src : Source)
deriving DecidableEq

/-- The operation. -/
def run : Operation → FrameM Answer
  | pushConstant v => push (·.pushConstant v)
  | pushTyped t r => return .slot (← FrameM.pushTyped t r)
  | pushDouble r => return .slot (← FrameM.pushDouble r)
  | pushRegs tag payload types => return .slot (← FrameM.pushRegs tag payload types)
  | pushSynced types => push (·.pushSynced types)
  | pushCopy s => push (·.pushCopy s)
  | pushVar v => push (·.pushVar v)
  | dup => push Frame.dup
  | pop => do
    FrameM.update Frame.pop
    return .done
  | popN n => do
    FrameM.update (Frame.popN n)
    return .done
  | alloc => return .reg (← FrameM.alloc)
  | allocDouble => return .freg (← FrameM.allocDouble)
  | take r => return .reg (← FrameM.take r)
  | free r => do
    FrameM.free r
    return .done
  | freeDouble r => do
    FrameM.freeDouble r
    return .done
  | dataReg s => return .reg (← FrameM.dataReg s)
  | tagReg s => return .reg (← FrameM.tagReg s)
  | doubleReg s => return .freg (← FrameM.doubleReg s)
  | copyData s => return .reg (← FrameM.copyData s)
  | copyTag s => return .reg (← FrameM.copyTag s)
  | copyNumber s => return .freg (← FrameM.copyNumber s)
  | source s => return .source (← FrameM.source s)
  | unpinSource src => do
    FrameM.unpinSource src
    return .done
  | uncopy s => do
    FrameM.uncopy s
    return .done
  | separate lhs rhs => do
    FrameM.separate lhs rhs
    return .done
  | store t s => do
    FrameM.store t s
    return .done
  | storeVar v popped => do
    FrameM.storeVar v popped
    return .done
  | shimmy n => do
    FrameM.shimmy n
    return .done
  | swap => do
    FrameM.swap
    return .done
  | syncEntry s => do
    FrameM.syncEntry s
    return .done
  | syncAll => do
    FrameM.syncAll
    return .done
  | syncAndKill => do
    FrameM.syncAndKill
    return .done
  | learnType s t => do
    FrameM.learnType s t
    return .done
where
  /-- A push that needs no register. -/
  push (g : Frame → Frame) : FrameM Answer := do
    let f ← FrameM.frame
    FrameM.update g
    return .slot f.sp

/-- The value that a push finds in registers or in memory. -/
def pushed? (op : Operation) (f : Frame) (m : Machine) : Option Value :=
  match op with
  | pushTyped t r => do
    let tag ← t.tag?
    let payload ← m.reg r
    (Cell.decode ⟨tag.word, payload⟩).toOption
  | pushDouble r => (m.freg r).map .double
  | pushRegs tag payload _ => do
    let tag ← m.reg tag
    let payload ← m.reg payload
    (Cell.decode ⟨tag, payload⟩).toOption
  | pushSynced _ => do
    let c ← m.slots[f.sp]?
    c.decode.toOption
  | _ => none

/-- What the operation does to the array of values. `slotOf` gives the slot of a variable,
and `pushed` is the value that a push has found. -/
def apply (op : Operation) (slotOf : Bytecode.Var → Slot) (pushed : Value) (vs : Array Value) :
    Array Value :=
  let top := vs.size - 1
  match op with
  | pushConstant v => vs.push v
  | pushTyped .. | pushDouble _ | pushRegs .. | pushSynced _ => vs.push pushed
  | pushCopy s => vs.push (lookup vs s)
  | pushVar v => vs.push (lookup vs (slotOf v))
  | dup => vs.push (lookup vs top)
  | pop => vs.pop
  | popN n => vs.take (vs.size - n)
  | store t s => vs.setIfInBounds t (lookup vs s)
  | storeVar v popped =>
    let vs' := vs.setIfInBounds (slotOf v) (lookup vs top)
    if popped then vs'.pop else vs'
  | shimmy n => (vs.setIfInBounds (top - n) (lookup vs top)).take (vs.size - n)
  | swap => (vs.setIfInBounds (top - 1) (lookup vs top)).setIfInBounds top (lookup vs (top - 1))
  | _ => vs

/-- The slots that the operation names are below the stack pointer, and what it pops is on
the operand stack. -/
def Valid (op : Operation) (f : Frame) : Prop :=
  match op with
  | pushRegs tag payload _ => tag ≠ payload
  | take r => r.index < Reg.count
  | pushVar v => f.varSlot v < f.sp
  | dup => 0 < f.sp
  | pop => f.stackBase < f.sp
  | popN n => f.stackBase + n ≤ f.sp
  | pushCopy s | dataReg s | tagReg s | doubleReg s | copyData s | copyTag s | source s
  | uncopy s | syncEntry s => s < f.sp
  | copyNumber s =>
    s < f.sp ∧ (f.knownType s = .unknown ∨ f.knownType s = .int32 ∨ f.knownType s = .double)
  | separate lhs rhs => lhs < f.sp ∧ rhs < f.sp
  | store t s => t < f.sp ∧ s < f.sp
  | storeVar v _ => f.varSlot v < f.sp ∧ f.stackBase < f.sp
  | shimmy n => f.stackBase + n < f.sp
  | swap => f.stackBase + 1 < f.sp
  | learnType s _ => s < f.sp ∧ f.knownType s = .unknown
  | _ => True

/-- The machine has memory for the slots that are needed. -/
def Fits (op : Operation) (f : Frame) (m : Machine) : Prop :=
  match op with
  | pushConstant _ | pushTyped .. | pushDouble _ | pushRegs .. | pushSynced _ | pushCopy _
  | pushVar _ | dup | swap => f.sp < m.slots.size
  | _ => True

/-- The machine holds values of the types that the operation relies on. -/
def Truthful (op : Operation) (f : Frame) (m : Machine) : Prop :=
  match op with
  | pushTyped .. | pushDouble _ => (op.pushed? f m).isSome
  | pushRegs _ _ types => ∃ v, op.pushed? f m = some v ∧
      ∀ tag, types.knownType.tag? = some tag → v.tag = tag
  | pushSynced types => ∃ v, op.pushed? f m = some v ∧ types.knownType.Describes v
  | copyNumber s => ∀ v, f.value? m s = some v → v.isNumber
  | learnType s t => ∀ v tag, f.value? m s = some v → t.tag? = some tag → v.tag = tag
  | _ => True

/-- The operation gives the temporary back. -/
def Consumes (op : Operation) (r : Reg) : Prop :=
  match op with
  | pushTyped _ payload | free payload => r = payload
  | pushRegs tag payload _ => r = tag ∨ r = payload
  | _ => False

/-- The operation gives the double temporary back. -/
def FConsumes (op : Operation) (r : FReg) : Prop :=
  match op with
  | pushDouble q | freeDouble q => r = q
  | _ => False

/-- The register has become a temporary. -/
def Fresh (f f' : Frame) (r : Reg) : Prop := f'.regs.binding r = .temp ∧ ¬f.regs.Held r

/-- The double register has become a temporary. -/
def FFresh (f f' : Frame) (r : FReg) : Prop := f'.regs.fbinding r = .temp ∧ ¬f.regs.FHeld r

/-- The register holds the number. -/
def HoldsNumber (m : Machine) (r : FReg) (v : Value) : Prop :=
  ∃ d, m.freg r = some d ∧ (Value.double d).same v

/-- What the answer of the operation stands for, where the frame stood for `vs`. -/
def Answers (op : Operation) (f : Frame) (vs : Array Value) (a : Answer) (f' : Frame)
    (m' : Machine) : Prop :=
  match op, a with
  | pushConstant _, .slot s | pushTyped .., .slot s | pushDouble _, .slot s | pushRegs .., .slot s
  | pushSynced _, .slot s | pushCopy _, .slot s | pushVar _, .slot s | dup, .slot s => s = f.sp
  | alloc, .reg r => Fresh f f' r
  | allocDouble, .freg r => FFresh f f' r
  | take q, .reg r => r = q ∧ f'.regs.binding r = .temp
  | dataReg s, .reg r => ∃ c : Cell, m'.reg r = some c.payload ∧ c.Encodes (lookup vs s)
  | tagReg s, .reg r => ∃ c : Cell, m'.reg r = some c.tag ∧ c.Encodes (lookup vs s)
  | doubleReg s, .freg r => HoldsNumber m' r (lookup vs s)
  | copyData s, .reg r =>
    Fresh f f' r ∧ ∃ c : Cell, m'.reg r = some c.payload ∧ c.Encodes (lookup vs s)
  | copyTag s, .reg r => Fresh f f' r ∧ ∃ c : Cell, m'.reg r = some c.tag ∧ c.Encodes (lookup vs s)
  | copyNumber s, .freg r => FFresh f f' r ∧ HoldsNumber m' r (lookup vs s)
  | source s, .source src =>
    FrameM.SourcePinned f' src ∧ ∃ c : Cell, m'.source? src = some c ∧ c.Encodes (lookup vs s)
  | pop, .done | popN _, .done | free _, .done | freeDouble _, .done | unpinSource _, .done
  | uncopy _, .done | separate .., .done | store .., .done | storeVar .., .done | shimmy _, .done
  | swap, .done | syncEntry _, .done | syncAll, .done | syncAndKill, .done
  | learnType .., .done => True
  | _, _ => False

end Operation

end FastPath
