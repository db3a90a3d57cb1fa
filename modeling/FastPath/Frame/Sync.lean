import FastPath.Frame.Basic
import FastPath.Target.Inst

/-!
# Bringing memory up to date

`Frame.syncCode` is the code that stores every slot whose memory is not up to date, and
`Frame.mergeCode` the code that loads every register the frame has bound. Neither changes
the frame: a slow path stores, calls a stub that leaves no register intact, and loads.
-/

namespace FastPath

namespace Frame

/-- The code that stores a copy. -/
def copySyncCode (f : Frame) (slot backing : Slot) : List Inst :=
  let source := f.entry backing
  match source.data with
  | .freg r => [.storeValue slot (.double r)]
  | .reg r =>
    let tag := match source.type.tag?, source.tag with
      | some t, _ => Operand.ofTag t
      | none, some r => .reg r
      | none, none => .tag backing
    [.storePayload slot (.reg r), .storeTag slot tag]
  | .memory =>
    match source.type.tag?, source.tag with
    | some t, _ => [.storePayload slot (.payload backing), .storeTag slot (.ofTag t)]
    | none, some r => [.storePayload slot (.payload backing), .storeTag slot (.reg r)]
    | none, none => [.copySlot slot backing]

/-- The code that stores the payload of a value that its slot owns. -/
def dataSyncCode (slot : Slot) (e : Entry) : List Inst :=
  match e.dataSynced, e.data with
  | false, .reg r => [.storePayload slot (.reg r)]
  | _, _ => []

/-- The code that stores the tag of a value that its slot owns. -/
def tagSyncCode (slot : Slot) (e : Entry) : List Inst :=
  if e.tagSynced then []
  else
    match e.type.tag?, e.tag with
    | some t, _ => [.storeTag slot (.ofTag t)]
    | none, some r => [.storeTag slot (.reg r)]
    | none, none => []

/-- The code that brings the memory of one slot up to date. -/
def entrySyncCode (f : Frame) (slot : Slot) : List Inst :=
  let e := f.entry slot
  if e.isSynced then []
  else
    match e.role with
    | .copyOf backing => f.copySyncCode slot backing
    | .constant v => [.storeValue slot (.constant v.toCell)]
    | .own =>
      match e.data with
      | .freg r => [.storeValue slot (.double r)]
      | _ => dataSyncCode slot e ++ tagSyncCode slot e

/-- The code that brings the memory of every slot up to date. -/
def syncCode (f : Frame) : List Inst := (List.range f.sp).flatMap f.entrySyncCode

/-- The code that loads the registers of one slot. -/
def entryMergeCode (f : Frame) (slot : Slot) : List Inst :=
  let e := f.entry slot
  match e.role with
  | .copyOf _ | .constant _ => []
  | .own =>
    (match e.data with
      | .reg r => [.move r (.payload slot)]
      | .freg r => [.loadDouble r slot]
      | .memory => []) ++
    (match e.tag with
      | some r => [.move r (.tag slot)]
      | none => [])

/-- The code that loads every register that holds a slot. -/
def mergeCode (f : Frame) : List Inst := (List.range f.sp).flatMap f.entryMergeCode

/-- Change every entry below the stack pointer. -/
def mapLive (f : Frame) (g : Entry → Entry) : Frame :=
  { f with entries := f.entries.mapIdx fun slot e => if slot < f.sp then g e else e }

/-! ### Consistency -/

/-- What is wrong with a copy. -/
def copyFault? (f : Frame) (slot : Slot) : Option Violation :=
  match (f.entry slot).copyOf? with
  | some backing =>
    if slot ≤ backing ∨ f.isCopy backing then some (.badCopy slot backing) else none
  | none => none

/-- What is wrong with the register of a payload. -/
def dataFault? (f : Frame) (slot : Slot) : Option Violation :=
  match (f.entry slot).data with
  | .memory => none
  | .reg r => if f.regs.binding r = .data slot then none else some (.payloadNotHeld r slot)
  | .freg r => if f.regs.fbinding r = .data slot then none else some (.doubleNotHeld r slot)

/-- What is wrong with the register of a tag. -/
def tagFault? (f : Frame) (slot : Slot) : Option Violation :=
  match (f.entry slot).tag with
  | none => none
  | some r => if f.regs.binding r = .tag slot then none else some (.tagNotHeld r slot)

/-- Registers that should have been given back. -/
def liveFault? (f : Frame) : Option Violation :=
  let temps := f.regs.tempCount
  let pinned := f.regs.pinnedCount
  if 0 < temps ∨ 0 < pinned then some (.liveRegisters temps pinned) else none

/-- The first thing wrong with the frame between two operations. -/
def fault? (f : Frame) : Option Violation :=
  f.liveFault?.or ((List.range f.sp).findSome? fun slot =>
    ((f.copyFault? slot).or (f.dataFault? slot)).or (f.tagFault? slot))

end Frame

end FastPath
