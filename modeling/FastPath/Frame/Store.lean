import FastPath.Frame.Load

/-!
# Moving values between slots

Assigning a slot does not move the value in memory: the registers change hands, and the
slot above becomes a copy of the one assigned. Before a slot is overwritten its value
moves to the lowest slot that copies it.
-/

namespace FastPath

namespace FrameM

/-- Turn a copy into an entry that owns its value. -/
def materialize (slot : Slot) : FrameM Unit := do
  let f ← frame
  match (f.entry slot).copyOf? with
  | none => return
  | some backing =>
    let source := f.entry backing
    let base := { Entry.unsynced source.type source.types with init := source.init }
    let owned ←
      if f.isSynced slot then pure base.synced
      else
        match source.type with
        | .double => do
          let r ← copyNumber backing
          updateRegs (·.fbind r (.data slot))
          pure { base with data := .freg r }
        | .unknown => do
          let tag ← copyTag backing
          let payload ← withPinned tag (copyData backing)
          updateRegs (·.bind tag (.tag slot))
          updateRegs (·.bind payload (.data slot))
          pure { base with data := .reg payload, tag := some tag }
        | _ => do
          let payload ← copyData backing
          updateRegs (·.bind payload (.data slot))
          pure { base with data := .reg payload }
    update fun f => (f.setEntry slot owned).bumpGeneration

/-- Move the value of a slot to the lowest slot that copies it, so that the slot can be
overwritten; the other copies follow. -/
def uncopy (slot : Slot) : FrameM Unit := do
  match (← frame).copiesOf slot with
  | [] => return
  | first :: rest =>
    materialize first
    update fun f =>
      rest.foldl (fun f s => f.update s fun e => { e with role := .copyOf first }) f

/-- Give two operands distinct registers when the right one copies the left one's value. -/
def separate (lhs rhs : Slot) : FrameM Unit := do
  let f ← frame
  if f.sameBacking lhs rhs && (f.constant? rhs).isNone && f.isCopy rhs then materialize rhs

/-- Give the value and registers of `source` to the lower slot `target`; the source
becomes a copy, and so do its copies. -/
def transfer (source target : Slot) : FrameM Unit := do
  if source ≤ target then fail (.transferUp source target)
  let e := (← frame).entry source
  let base := { Entry.unsynced e.type e.types with init := e.init }
  let owned ←
    match e.type with
    | .double => do
      let r ← doubleReg source
      updateRegs (·.fbind r (.data target))
      pure { base with data := .freg r }
    | .unknown => do
      let tag ← tagReg source
      let payload ← withPinned tag (dataReg source)
      updateRegs (·.bind tag (.tag target))
      updateRegs (·.bind payload (.data target))
      pure { base with data := .reg payload, tag := some tag }
    | _ => do
      let payload ← dataReg source
      updateRegs (·.bind payload (.data target))
      pure { base with data := .reg payload }
  update fun f =>
    let synced := f.isSynced source
    let copies := f.copiesOf source
    let copy := { Entry.copy target with dataSynced := synced, tagSynced := synced }
    let f := (f.setEntry target owned).setEntry source copy
    (copies.foldl (fun f s => f.update s fun e => { e with role := .copyOf target })
      f).bumpGeneration

/-- Assign the value of `source` to the lower slot `target`. -/
def store (target source : Slot) : FrameM Unit := do
  if (← frame).backing source = target then return
  if source ≤ target then fail (.storeDown source target)
  uncopy target
  update fun f => (f.release target).bumpGeneration
  let f ← frame
  let backing := f.backing source
  match f.constant? source with
  | some v => update (·.setEntry target (.constant v))
  | none =>
    if backing < target then update (·.setEntry target (.copy backing))
    else transfer backing target

/-- Assign the top to a variable, and pop it if asked. -/
def storeVar (v : Bytecode.Var) (popped : Bool) : FrameM Unit := do
  let f ← frame
  store (f.varSlot v) (f.peek 1)
  if popped then update Frame.pop

/-- Replace the `n` entries below the top by the top. -/
def shimmy (n : Nat) : FrameM Unit := do
  let f ← frame
  store (f.peek (n + 1)) (f.peek 1)
  update (Frame.popN n)

/-- Exchange the two top entries. -/
def swap : FrameM Unit := do
  update fun f => f.pushCopy (f.peek 2)
  let f ← frame
  store (f.peek 3) (f.peek 2)
  store (f.peek 2) (f.peek 1)
  update Frame.pop

end FrameM

end FastPath
