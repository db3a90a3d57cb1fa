import FastPath.Machine.State
import FastPath.Types.Set

/-!
# Machine steps

`MachineM.step` executes the current instruction and says where control goes.

Inline caches are consulted here. When the class guard of a cache trips, the cases that
the cache has learned are tried before the branch is taken.
-/

namespace FastPath

/-- How a run ends. -/
inductive Outcome where
  | ret (v : Value)
  | bailout (b : Bailout)
deriving DecidableEq, Repr, Inhabited

/-- Where control goes after an instruction. -/
inductive Control where
  | next
  | goto (target : Offset)
  | stop (outcome : Outcome)
deriving DecidableEq, Repr, Inhabited

namespace MachineM

/-! ### Element storage -/

/-- The cell at an index of some storage. -/
def cellAt (cells : Array Cell) (i : Nat) : MachineM Cell :=
  match cells[i]? with
  | some c => return c
  | none => fault (.elementOutOfRange i)

/-- The storage with a cell replaced. -/
def withCell (cells : Array Cell) (i : Nat) (c : Cell) : MachineM (Array Cell) :=
  if i < cells.size then return cells.setIfInBounds i c else fault (.elementOutOfRange i)

/-- Load a cell into registers. -/
def loadCell (c : Cell) (tag : Option Reg) (payload : Reg) : MachineM Unit := do
  setReg? tag c.tag
  setReg payload c.payload

/-! ### Caches -/

/-- The layout of a cache. -/
def cacheLayout (cache : CacheId) : MachineM (CacheLayout Offset) := do
  match (← read).code.caches[cache]? with
  | some l => return l
  | none => throw (.unknownCache cache)

/-- Try a read through the learned cases. -/
def probeRead (cache : CacheId) (layout : CacheLayout Offset) (cases : List CacheCase)
    (o : ObjId) (key : Value) : MachineM Bool := do
  match ← expect ((← get).heap.probeGet cases o key) with
  | none => return false
  | some cell =>
    match layout.result with
    | none => fault (.noCacheResult cache)
    | some (tag, payload) =>
      loadCell cell (some tag) payload
      return true

/-- Try a write through the learned cases. -/
def probeWrite (cache : CacheId) (layout : CacheLayout Offset) (cases : List CacheCase)
    (o : ObjId) (key : Value) : MachineM Bool := do
  match layout.value with
  | none => fault (.noCacheValue cache)
  | some value =>
    let v ← expect (← source value).decode
    match ← expect ((← get).heap.probeSet o key v cases) with
    | none => return false
    | some heap =>
      modify fun m => { m with heap }
      return true

/-- Try the learned cases of a cache whose class guard has tripped; gives where to go on
if one of them covers the access. -/
def probe? (cache : CacheId) : MachineM (Option Offset) := do
  match (← get).caches[cache]? with
  | none => throw (.unknownCache cache)
  | some state =>
    if state.cases.isEmpty then return none
    let layout ← cacheLayout cache
    let o : ObjId := ⟨(← getReg layout.obj).toUInt32⟩
    let key ← cacheKey layout.key
    let hit ←
      match layout.kind with
      | .get => probeRead cache layout state.cases o key
      | .set => probeWrite cache layout state.cases o key
    if hit then
      count fun s => { s with cacheHits := s.cacheHits + 1 }
      return some layout.rejoin
    else return none

/-- Teach a cache the case that covers an access. -/
def learn (cache : CacheId) (base key : Value) : MachineM Unit := do
  match ← onHeap (chooseCase base key) with
  | none => return
  | some case =>
    let limit := (← read).code.cacheLimit
    modify fun m =>
      { m with caches := m.caches.modify cache fun s => (s.learn case limit).2 }

/-! ### Guards -/

/-- Whether a class test holds. -/
def classTest (cond : Cond) (actual cls : ObjectClass) : MachineM Bool :=
  match cond with
  | .equal => return actual = cls
  | .notEqual => return actual ≠ cls
  | other => fault (.classOrdering other)

/-- Read an element that is believed to be there; tells whether it is a hole. -/
def loadPacked (obj : Reg) (key : IndexKey) (tag : Option Reg) (payload : Reg) :
    MachineM Bool := do
  let i ← indexKey key
  let cell ← cellAt (← objectIn obj).elements i
  if cell.isHole then
    count fun s => { s with holeFaults := s.holeFaults + 1 }
    return true
  else
    loadCell cell tag payload
    return false

/-- Write a register if there is a result; tells whether there is none. -/
def setResult (dst : Reg) : Option Int32 → MachineM Bool
  | some i => do
    setReg dst i.toUInt32.toUInt64
    return false
  | none => return true

/-- Execute a guard; tells whether it trips. -/
def trips : Guard → MachineM Bool
  | .always => return true
  | .compare cond lhs rhs => do
    let a ← operand lhs
    return cond.eval a (← operand rhs)
  | .test nonZero lhs mask => do
    let a ← getReg lhs
    let b ← operand mask
    return ((a &&& b).toUInt32 != 0) == nonZero
  | .compareDouble cond lhs rhs => do
    let a ← getFReg lhs
    return cond.eval a (← getFReg rhs)
  | .checked op dst src => do
    let a ← getReg dst
    let b ← operand src
    setResult dst (op.onInt32s a.toUInt32.toInt32 b.toUInt32.toInt32)
  | .truncate src dst => do setResult dst (← getFReg src).truncateInt32?
  | .convert src dst => do setResult dst (← getFReg src).exactInt32?
  | .objectClass cond obj cls => do classTest cond (← objectIn obj).cls cls
  | .extent extent obj key cond => do
    let i ← indexKey key
    let object ← objectIn obj
    return cond.eval (UInt64.ofNat (object.extent extent)) (UInt64.ofNat i)
  | .hole obj key => do
    let i ← indexKey key
    let object ← objectIn obj
    return object.elements[i]?.all Cell.isHole
  | .loadPacked obj key tag payload => loadPacked obj key tag payload
  | .epoch expected => return (← get).heap.protoEpoch ≠ expected

/-- Where a branch whose guard has tripped goes: a cache may cover the access. -/
def tripped (guard : Guard) (target : Offset) : MachineM Offset := do
  match guard with
  | .objectClass _ _ _ =>
    let p ← read
    match p.code.guardCache? p.offset with
    | some cache => return (← probe? cache).getD target
    | none => return target
  | _ => return target

/-! ### Stub calls -/

/-- The site of the current call. -/
def site : MachineM RejoinSite := do
  let p ← read
  match (p.code.siteIndex? p.offset).bind (p.code.sites[·]?) with
  | some s => return s
  | none => fault .missingSite

/-- Hand back control because a stub failed. -/
def stubFailure (e : OpError) : MachineM Control := do
  let s ← site
  count fun s => { s with bailouts := s.bailouts + 1 }
  let frame ← decodeFrame s.sp
  return .stop (.bailout ⟨.stubFailure, s.pc, s.sp, frame, some e⟩)

/-- Check the result of a monitored site against its promised types. Only a call that
completes its operation is checked; its result is what it wrote in place of its first
operand. -/
def typeBarrier (stub : Stub) : MachineM Control := do
  let s ← site
  match s.monitored with
  | none => return .next
  | some promised =>
    if stub.defs = 0 ∨ s.sp + stub.defs ≠ s.spAfter + stub.uses then return .next
    let result ← expect (← getSlot (s.spAfter - stub.defs)).decode
    if (TypeSet.of (.ofBits promised)).contains result then return .next
    count fun s => { s with bailouts := s.bailouts + 1 }
    let frame ← decodeFrame s.spAfter
    return .stop (.bailout ⟨.typeBarrier, s.resumePc, s.spAfter, frame, none⟩)

/-- Run a stub on the frame and the heap. -/
def runStub (stub : Stub) (sp : Nat) (arg : Int64) : MachineM (Except OpError UInt64) := do
  let function := (← read).function
  modifyGet fun ⟨regs, fregs, slots, heap, caches, stats⟩ =>
    match StubCall.invoke ⟨function, sp, arg⟩ stub ⟨heap, slots⟩ with
    | .ok w ⟨heap, slots⟩ => (.ok w, ⟨regs, fregs, slots, heap, caches, stats⟩)
    | .error e ⟨heap, slots⟩ => (.error e, ⟨regs, fregs, slots, heap, caches, stats⟩)

/-- Call a stub. -/
def callStub (stub : Stub) (sp : Nat) (arg : Int64) : MachineM Control := do
  count fun s => { s with stubCalls := s.stubCalls + 1 }
  match ← runStub stub sp arg with
  | .error e => stubFailure e
  | .ok w =>
    modify (·.clobber .empty w)
    typeBarrier stub

/-- The stub of a cached access. -/
def cacheStub : CacheKind → Stub
  | .get => .getElem
  | .set => .setElem

/-- Call the generic form of a cached access, and let the cache learn from it. -/
def callCache (cache : CacheId) (sp : Nat) (preserve : RegMask) : MachineM Control := do
  let layout ← cacheLayout cache
  let stub := cacheStub layout.kind
  if sp < stub.uses then fault (.slotOutOfRange sp)
  let base ← expect (← getSlot (sp - stub.uses)).decode
  let key ← expect (← getSlot (sp - stub.uses + 1)).decode
  count fun s => { s with cacheCalls := s.cacheCalls + 1 }
  match ← runStub stub sp 0 with
  | .error e => stubFailure e
  | .ok w =>
    learn cache base key
    modify (·.clobber preserve w)
    typeBarrier stub

/-! ### Instructions -/

/-- Do something and go on to the next instruction. -/
def andNext (x : MachineM Unit) : MachineM Control := do
  x
  return .next

/-- The number in a slot as a double. -/
def cellDouble (c : Cell) : Double :=
  if c.tag = Tag.int32.word then Double.ofInt32 c.payload.toUInt32.toInt32 else ⟨c.payload⟩

/-- A truth value as a word. -/
def truthWord (b : Bool) : UInt64 := if b then 1 else 0

/-- Execute an instruction. -/
def execute : Inst → MachineM Control
  | .move dst src => andNext do setReg dst (← operand src)
  | .storeTag slot src => andNext do
    let w ← operand src
    updateSlot slot fun c => { c with tag := w }
  | .storePayload slot src => andNext do
    let w ← operand src
    updateSlot slot fun c => { c with payload := w }
  | .storeValue slot src => andNext do
    let c ← source src
    updateSlot slot fun _ => c
  | .copySlot dst src => andNext do
    let c ← getSlot src
    updateSlot dst fun _ => c
  | .loadDouble dst slot => andNext do setFReg dst (cellDouble (← getSlot slot))
  | .moveDoubleImm dst value => andNext (setFReg dst value)
  | .moveDouble dst src => andNext do setFReg dst (← getFReg src)
  | .moveBitsToDouble dst src => andNext do setFReg dst ⟨← getReg src⟩
  | .int32ToDouble dst src => andNext do
    setFReg dst (Double.ofInt32 (← getReg src).toUInt32.toInt32)
  | .uint32ToDouble dst src => andNext do
    setFReg dst (Double.ofNat (← getReg src).toUInt32.toNat)
  | .aluDouble op dst src => andNext do
    let a ← getFReg dst
    let b ← getFReg src
    setFReg dst (op.onDoubles a b)
  | .zeroDouble dst => andNext (setFReg dst .zero)
  | .alu op dst src => andNext do
    let a ← getReg dst
    let b ← operand src
    setReg dst (op.apply a.toUInt32 b.toUInt32).toUInt64
  | .bitNot dst => andNext do
    let a ← getReg dst
    setReg dst (~~~a.toUInt32).toUInt64
  | .set cond lhs rhs dst => andNext do
    let a ← getReg lhs
    let b ← operand rhs
    setReg dst (truthWord (cond.eval a b))
  | .setDouble cond lhs rhs dst => andNext do
    let a ← getFReg lhs
    let b ← getFReg rhs
    setReg dst (truthWord (cond.eval a b))
  | .loadExtent dst obj extent => andNext do
    setReg dst (UInt64.ofNat ((← objectIn obj).extent extent))
  | .storeExtent obj extent src => andNext do
    let w ← operand src
    updateObjectIn obj fun object => expect (object.setExtent extent w.toUInt32.toNat)
  | .loadElement obj key tag payload => andNext do
    let i ← indexKey key
    loadCell (← cellAt (← objectIn obj).elements i) tag payload
  | .storeElement obj key value => andNext do
    let i ← indexKey key
    let c ← source value
    updateObjectIn obj fun object => do
      return { object with elements := ← withCell object.elements i c }
  | .loadNamed obj slot tag payload => andNext do
    loadCell (← cellAt (← objectIn obj).slots slot) tag payload
  | .storeNamed obj slot value => andNext do
    let c ← source value
    updateObjectIn obj fun object => do
      return { object with slots := ← withCell object.slots slot c }
  | .callStub stub sp arg => callStub stub sp arg
  | .callCache cache sp preserve => callCache cache sp preserve
  | .branch guard target => do
    if ← trips guard then return .goto (← tripped guard target) else return .next
  | .ret value => do return .stop (.ret (← expect (← source value).decode))

/-- Count the instruction at the current position. -/
def countStep : MachineM Unit := do
  let p ← read
  count fun s =>
    if p.offset < p.code.fastLength then
      { s with steps := s.steps + 1, fastSteps := s.fastSteps + 1 }
    else { s with steps := s.steps + 1, slowSteps := s.slowSteps + 1 }

/-- Where a megamorphic cache whose inline path starts here goes instead. -/
def redirect? : MachineM (Option Offset) := do
  let p ← read
  match p.code.startCache? p.offset with
  | none => return none
  | some cache =>
    if (← get).caches[cache]?.any (·.megamorphic) then
      count fun s => { s with redirects := s.redirects + 1 }
      return some (← cacheLayout cache).slowStart
    else return none

/-- One step. Skipping an inline path takes a step but is no instruction. -/
def step : MachineM Control := do
  match ← redirect? with
  | some target => return .goto target
  | none =>
    let p ← read
    match p.code.insts[p.offset]? with
    | none => fault .offsetOutOfRange
    | some inst =>
      countStep
      execute inst

end MachineM

end FastPath
