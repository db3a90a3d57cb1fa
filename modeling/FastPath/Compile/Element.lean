import FastPath.Compile.Guard

/-!
# Element accesses

An access to what is known to be an array gets guarded inline code. Any other access that
may be one of an object gets an inline cache: the same inline code behind a class guard
that the cache may take over, and one slow path for every miss.

Reading past the initialized elements of an array, or a hole, gives `undefined` as long as
the array prototype is as it was when the code was compiled.
-/

namespace FastPath

/-- How an access is compiled. -/
inductive AccessPath where
  | generic
  /-- An array, believed to have no holes if packed. -/
  | dense (packed : Bool)
  | cache
deriving DecidableEq, Repr, Inhabited

/-- Where the key of an access is. -/
structure KeyLoc where
  key : CacheKey
  /-- The index, unless the key is known to be a string. -/
  index : Option IndexKey
  pins : List Reg
  temps : List Reg
deriving DecidableEq, Repr, Inhabited

namespace CompileM

open AsmM (frame branch label link linkExit)

/-- Choose how to compile an access. An indexed property of the prototype could stand in
for any hole, so arrays are not inlined while there is one. -/
def accessPath (heap : Heap) (f : Frame) (obj key : Slot) : AccessPath :=
  let objType := f.knownType obj
  let keyType := f.knownType key
  let kind := (f.types obj).kind
  if objType ≠ .unknown ∧ objType ≠ .object then .generic
  else if keyType ≠ .int32 ∧ keyType ≠ .string ∧ keyType ≠ .unknown then .generic
  else if (f.int32Constant? key).any fun i => i.toInt < 0 then .generic
  else if f.sameBacking obj key then .generic
  else if objType = .object ∧ kind.isDenseArray ∧ keyType ≠ .string ∧ !heap.protoHasIndexed then
    .dense (kind = .packedArray)
  else .cache

/-- The variable that a slot of arguments or locals is. -/
def slotVar (argCount : Nat) (slot : Slot) : Bytecode.Var :=
  if slot < argCount then .arg (UInt16.ofNat slot) else .loc (UInt16.ofNat (slot - argCount))

/-- Ask whether the bounds check has been moved out of the loop. Only a variable key into
an array in a variable is worth asking about. -/
def isHoisted (obj key : Slot) : CompileM Bool := do
  let c ← read
  let f ← frame
  let backing := f.backing obj
  if (f.constant? key).isSome || f.stackBase ≤ backing then return false
  let query : HoistQuery := ⟨c.pc, slotVar c.function.paramCount backing, 0⟩
  let asked := (← getThe Compilation).queries
  modifyThe Compilation fun s => { s with queries := s.queries.push query }
  return c.hoister asked.toList query

/-! ### Operands -/

/-- Bring the key into registers. -/
def loadKey (key : Slot) : FrameM KeyLoc := do
  let f ← FrameM.frame
  match f.constant? key, f.knownType key with
  | some (.int32 i), _ => return ⟨.constant i, some (.constant i), [], []⟩
  | some v, _ =>
    let r ← FrameM.copyData key
    return ⟨.reg none r (some v.tag.word), none, [], [r]⟩
  | none, .unknown =>
    let tag ← FrameM.tagReg key
    let tagPins ← pin tag
    let payload ← FrameM.dataReg key
    let payloadPins ← pin payload
    return ⟨.reg (some tag) payload none, some (.reg payload), tagPins ++ payloadPins, []⟩
  | none, known =>
    let payload ← FrameM.dataReg key
    let pins ← pin payload
    let index := if known = .int32 then some (.reg payload) else none
    return ⟨.reg none payload (known.tag?.map Tag.word), index, pins, []⟩

/-- Bring the container into a register. -/
def loadObject (obj : Slot) : FrameM (Reg × List Reg) := do
  let r ← FrameM.dataReg obj
  return (r, ← pin r)

/-- Guard that the key is an integer; a key known to be a string always exits. -/
def guardIntKey (key : Slot) (loc : KeyLoc) : CompileM Unit := do
  if loc.index.isNone then linkExit (← branch .fast .always)
  else linkGuard (← guardTag key .int32)

/-- Exit if the container is no array. -/
def exitUnlessArray (obj : Reg) : AsmM Unit := do
  linkExit (← branch .fast (.objectClass .notEqual obj .array))

/-- Branch if the key is past the initialized elements. -/
def branchPast (obj : Reg) (key : IndexKey) : AsmM Jump :=
  branch .fast (.extent .initializedLength obj key (.unsigned .le))

/-- Branch if the element is a hole. -/
def branchHole (obj : Reg) (key : IndexKey) : AsmM Jump := branch .fast (.hole obj key)

/-- Give back the registers of an access. -/
def releaseAccess (pins temps : List Reg) : FrameM Unit := do
  unpinAll pins
  temps.forM FrameM.free

/-- The index of an access to an array. -/
def denseIndex (loc : KeyLoc) : CompileM IndexKey :=
  match loc.index with
  | some index => return index
  | none => fail .denseStringKey

/-! ### Inline caches -/

/-- The inline path of a cache: the container must be an array, the key an index of an
initialized element, and `access` then reads or writes it. Gives the start of the path and
the position of its class guard. -/
def cachedInline (obj key : Slot) (objReg : Reg) (loc : KeyLoc) (access : IndexKey → Inst) :
    CompileM (Label × Label) := do
  let start ← label .fast
  linkGuard (← guardTag obj .object)
  let classGuard ← label .fast
  exitUnlessArray objReg
  guardIntKey key loc
  if let some index := loc.index then
    linkExit (← branchPast objReg index)
    linkExit (← branchHole objReg index)
    AsmM.emit .fast (access index)
  return (start, classGuard)

/-- The slow path of a cache, and the record of the cache. -/
def recordCache (kind : CacheKind) (inline : Label × Label) (objReg : Reg) (loc : KeyLoc)
    (value : Option Source) (result : Option (Reg × Reg)) : CompileM Unit := do
  let rejoin ← label .fast
  let id := (← getThe Compilation).caches.size
  let slowStart ← AsmM.leave
  let preserved := (← frame).regs.inUse
  let _ ← AsmM.callCache id preserved
  let layout : CacheLayout Label :=
    { kind
      pc := (← read).pc
      start := inline.1
      classGuard := inline.2
      rejoin
      slowStart
      obj := objReg
      key := loc.key
      value
      result
      preserved }
  modifyThe Compilation fun s => { s with caches := s.caches.push layout }

/-! ### Reading -/

/-- Read an element of an array; gives the branches that are taken when there is none. -/
def loadDense (obj : Reg) (index : IndexKey) (packed : Bool) (tag : Option Reg)
    (payload : Reg) : AsmM (List Jump) := do
  if packed then return [← branch .fast (.loadPacked obj index tag payload)]
  else
    let hole ← branchHole obj index
    AsmM.emit .fast (.loadElement obj index tag payload)
    return [hole]

/-- Let the misses read `undefined`, unless the prototype has changed. -/
def missesReadUndefined (misses : List Jump) (tag : Option Reg) (payload : Reg) :
    CompileM Unit := do
  let done ← branch .fast .always
  AsmM.linkAll misses (← label .fast)
  linkExit (← branch .fast (.epoch (← read).heap.protoEpoch))
  if let some r := tag then AsmM.emit .fast (.move r (.ofTag .undefined))
  AsmM.emit .fast (.move payload (.imm 0))
  link done (← label .fast)

/-- Push what has been read. -/
def pushRead (tag : Option Reg) (payload : Reg) (types : TypeSet) : FrameM Unit := do
  match tag with
  | some t =>
    let _ ← FrameM.pushRegs t payload types
  | none =>
    let slot ← FrameM.pushTyped types.knownType payload
    FrameM.update (·.setTypes slot types)

/-- A register for the tag of what is read, unless its type is known. -/
def tagReg? (types : TypeSet) : FrameM (Option Reg) := do
  if types.knownType.tag?.isSome then return none else return some (← FrameM.alloc)

/-- The bounds check, unless it has been moved out of the loop; gives the branch that is taken
when it fails. -/
def checkBounds (hoisted : Bool) (obj : Reg) (index : IndexKey) : AsmM (List Jump) := do
  if hoisted then return [] else return [← branchPast obj index]

/-- Give the misses a target. -/
def linkMisses (types : TypeSet) (misses : List Jump) (tag : Option Reg) (payload : Reg) :
    CompileM Unit :=
  if types.mightBe .undefined then missesReadUndefined misses tag payload
  else misses.forM fun j => (linkExit j : CompileM Unit)

/-- Read from an array. -/
def getDense (obj key : Slot) (packed : Bool) : CompileM Emitted := do
  let types ← pushedTypes
  let hoisted ← isHoisted obj key
  let (objReg, objPins) ← loadObject obj
  let loc ← loadKey key
  let index ← denseIndex loc
  let tag ← tagReg? types
  let payload ← FrameM.alloc
  guardIntKey key loc
  exitUnlessArray objReg
  let past ← checkBounds hoisted objReg index
  let holes ← loadDense objReg index packed tag payload
  linkMisses types (past ++ holes) tag payload
  AsmM.slowCall .getElem 0
  releaseAccess (objPins ++ loc.pins) loc.temps
  AsmM.updateFrame (Frame.popN 2)
  pushRead tag payload types
  AsmM.rejoin 1
  return .inline

/-- Read through a cache. -/
def getCached (obj key : Slot) : CompileM Emitted := do
  let types ← pushedTypes
  let (objReg, objPins) ← loadObject obj
  let loc ← loadKey key
  let tag ← FrameM.alloc
  let payload ← FrameM.alloc
  let inline ← cachedInline obj key objReg loc fun index =>
    .loadElement objReg index (some tag) payload
  recordCache .get inline objReg loc none (some (tag, payload))
  releaseAccess (objPins ++ loc.pins) loc.temps
  AsmM.updateFrame (Frame.popN 2)
  let _ ← FrameM.pushRegs tag payload types
  AsmM.rejoin 1
  return .inline

/-- Read an element. -/
def getElem : CompileM Emitted := do
  let f ← frame
  let obj := f.peek 2
  let key := f.peek 1
  match accessPath (← read).heap f obj key with
  | .generic => emitStub .getElem 0
  | .dense packed => getDense obj key packed
  | .cache => getCached obj key

/-! ### Writing -/

/-- Leave the written value on the stack in place of the three operands. -/
def finishWrite (source : Source) (pins temps : List Reg) : CompileM Unit := do
  FrameM.unpinSource source
  releaseAccess pins temps
  FrameM.shimmy 2
  AsmM.rejoin 1

/-- The length after a write at the initialized length. -/
def grownLength (index : IndexKey) (grown : Option Reg) : CompileM Operand :=
  match index, grown with
  | .constant i, _ => return .imm (i.toInt64 + 1)
  | .reg _, some r => return .reg r
  | .reg _, none => fail .noLengthRegister

/-- The out-of-line write at exactly the initialized length, if there is capacity: the
initialized length grows, and the length if it has to. -/
def extendArray (past : Jump) (obj : Reg) (index : IndexKey) (source : Source)
    (grown : Option Reg) (stored : Label) : CompileM Unit := do
  let length ← grownLength index grown
  link past (← label .slow)
  let gap ← branch .slow (.extent .initializedLength obj index .notEqual)
  let full ← branch .slow (.extent .capacity obj index (.unsigned .le))
  AsmM.emit .slow (.storeElement obj index source)
  match index, length with
  | .reg key, .reg r =>
    AsmM.emit .slow (.move r (.reg key))
    AsmM.emit .slow (.alu (.arith .add) r (.imm 1))
  | _, _ => pure ()
  AsmM.emit .slow (.storeExtent obj .initializedLength length)
  let longEnough ← branch .slow (.extent .length obj index (.unsigned .gt))
  AsmM.emit .slow (.storeExtent obj .length length)
  let back ← branch .slow .always
  link longEnough stored
  link back stored
  linkExit gap
  linkExit full

/-- Give the branch of the bounds check a target, if there is one. -/
def linkPast (past : List Jump) (obj : Reg) (index : IndexKey) (source : Source)
    (grown : Option Reg) (stored : Label) : CompileM Unit :=
  past.forM fun j => extendArray j obj index source grown stored

/-- Exit if there is a hole, unless the array is believed to have none. -/
def exitOnHole (packed : Bool) (obj : Reg) (index : IndexKey) : AsmM Unit := do
  if packed then return else linkExit (← branchHole obj index)

/-- A register for the grown length, if one is needed. -/
def grownReg? (hoisted : Bool) (index : IndexKey) : FrameM (Option Reg) := do
  match hoisted, index with
  | false, .reg _ => return some (← FrameM.alloc)
  | _, _ => return none

/-- Write to an array. -/
def setDense (obj key value : Slot) (packed : Bool) : CompileM Emitted := do
  let hoisted ← isHoisted obj key
  let (objReg, objPins) ← loadObject obj
  let loc ← loadKey key
  let index ← denseIndex loc
  let source ← FrameM.source value
  let grown ← grownReg? hoisted index
  guardIntKey key loc
  exitUnlessArray objReg
  let past ← checkBounds hoisted objReg index
  exitOnHole packed objReg index
  AsmM.emit .fast (.storeElement objReg index source)
  let stored ← label .fast
  linkPast past objReg index source grown stored
  AsmM.slowCall .setElem 0
  finishWrite source (objPins ++ loc.pins) (loc.temps ++ grown.toList)
  return .inline

/-- Write through a cache. -/
def setCached (obj key value : Slot) : CompileM Emitted := do
  let (objReg, objPins) ← loadObject obj
  let loc ← loadKey key
  let source ← FrameM.source value
  let inline ← cachedInline obj key objReg loc fun index => .storeElement objReg index source
  recordCache .set inline objReg loc (some source) none
  finishWrite source (objPins ++ loc.pins) loc.temps
  return .inline

/-- Write an element. -/
def setElem : CompileM Emitted := do
  let f ← frame
  let obj := f.peek 3
  let key := f.peek 2
  let value := f.peek 1
  match accessPath (← read).heap f obj key with
  | .generic => emitStub .setElem 0
  | .dense packed => setDense obj key value packed
  | .cache => setCached obj key value

end CompileM

end FastPath
