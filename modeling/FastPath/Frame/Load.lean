import FastPath.Frame.Alloc

/-!
# Loading slots into registers

A slot can be bound to a register, which the frame then owns, or copied into a temporary,
which the caller owns. Only binding changes what the frame knows about the slot.
-/

namespace FastPath

namespace FrameM

/-! ### Bound registers -/

/-- The register bound to the payload of a slot, loading it if needed. -/
def dataReg (slot : Slot) : FrameM Reg := do
  let f ← frame
  let backing := f.backing slot
  let e := f.entry backing
  if e.constant?.isSome then fail .payloadOfConstant
  match e.data with
  | .reg r =>
    updateRegs (·.touch r)
    return r
  | .freg _ => fail .payloadOfDouble
  | .memory =>
    let r ← alloc
    emit (.move r (.payload backing))
    updateRegs (·.bind r (.data backing))
    update (·.update backing fun e => { e with data := .reg r })
    return r

/-- The register bound to the tag of a slot of unknown type, loading it if needed. -/
def tagReg (slot : Slot) : FrameM Reg := do
  let f ← frame
  let backing := f.backing slot
  let e := f.entry backing
  unless e.type = .unknown do fail .tagOfKnown
  match e.tag with
  | some r =>
    updateRegs (·.touch r)
    return r
  | none =>
    let r ← alloc
    emit (.move r (.tag backing))
    updateRegs (·.bind r (.tag backing))
    update (·.update backing fun e => { e with tag := some r })
    return r

/-- The double register bound to a slot known to be a number, loading it if needed. -/
def doubleReg (slot : Slot) : FrameM FReg := do
  let f ← frame
  let backing := f.backing slot
  let e := f.entry backing
  if e.constant?.isSome ∨ e.type ≠ .double then fail (.doubleOf e.type)
  match e.data with
  | .freg r =>
    updateRegs (·.ftouch r)
    return r
  | .reg r => fail (.doubleInReg r)
  | .memory =>
    let r ← allocDouble
    emit (.loadDouble r backing)
    updateRegs (·.fbind r (.data backing))
    update (·.update backing fun e => { e with data := .freg r })
    return r

/-! ### Copies in temporaries -/

/-- A temporary that holds the given word. -/
def loadTemp (src : Operand) : FrameM Reg := do
  let r ← alloc
  emit (.move r src)
  return r

/-- A temporary that holds what a bound register holds. -/
def copyReg (src : Reg) : FrameM Reg := do
  let r ← withPinned src alloc
  emit (.move r (.reg src))
  return r

/-- A temporary that holds the payload of a slot. -/
def copyData (slot : Slot) : FrameM Reg := do
  let f ← frame
  let backing := f.backing slot
  let e := f.entry backing
  match e.constant? with
  | some v => loadTemp (.imm v.payload.toInt64)
  | none =>
    match e.data with
    | .reg src => copyReg src
    | .memory => loadTemp (.payload backing)
    | .freg _ => fail .payloadCopyOfDouble

/-- A temporary that holds the tag of a slot. -/
def copyTag (slot : Slot) : FrameM Reg := do
  let f ← frame
  let backing := f.backing slot
  let e := f.entry backing
  match e.constant?, e.type.tag?, e.tag with
  | some v, _, _ => loadTemp (.ofTag v.tag)
  | none, some t, _ => loadTemp (.ofTag t)
  | none, none, some src => copyReg src
  | none, none, none =>
    if e.type = .unknown ∨ e.data = .memory then loadTemp (.tag backing)
    else fail .tagCopyOfDouble

/-- A double temporary that holds the number in a slot. A slot of unknown type must have
passed a guard; it is stored and loaded again, which converts an integer. -/
def copyNumber (slot : Slot) : FrameM FReg := do
  let f ← frame
  let backing := f.backing slot
  let e := f.entry backing
  match e.constant?, e.type, e.data with
  | some v, _, _ =>
    match v.double? with
    | none => fail .constantIsNoNumber
    | some d =>
      let r ← allocDouble
      emit (.moveDoubleImm r d)
      return r
  | none, .int32, _ =>
    let src ← dataReg backing
    let r ← withPinned src allocDouble
    emit (.int32ToDouble r src)
    return r
  | none, _, .freg src =>
    let r ← withDoublePinned src allocDouble
    emit (.moveDouble r src)
    return r
  | none, _, _ =>
    syncEntry backing
    let r ← allocDouble
    emit (.loadDouble r backing)
    return r

/-! ### Whole values -/

/-- The value of a slot as an instruction reads it. Its registers stay pinned until
`unpinSource`. -/
def source (slot : Slot) : FrameM Source := do
  let f ← frame
  let backing := f.backing slot
  let e := f.entry backing
  match e.constant?, e.type with
  | some v, _ => return .constant v.toCell
  | none, .double =>
    let r ← doubleReg backing
    updateRegs (·.setFPinned r true)
    return .double r
  | none, .unknown =>
    let tag ← tagReg backing
    updateRegs (·.setPinned tag true)
    let payload ← dataReg backing
    updateRegs (·.setPinned payload true)
    return .regs tag payload
  | none, t =>
    let payload ← dataReg backing
    updateRegs (·.setPinned payload true)
    return .typed (t.tag?.getD .undefined) payload

/-- Unpin the registers of a value. -/
def unpinSource : Source → FrameM Unit
  | .constant _ => return
  | .typed _ payload => unpin payload
  | .regs tag payload => do
    unpin tag
    unpin payload
  | .double r => updateRegs (·.setFPinned r false)

end FrameM

end FastPath
