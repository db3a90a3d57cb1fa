import FastPath.Cache
import FastPath.Target.Buffer

/-!
# Finished code

Finished code is a list of instructions together with what its activation needs to know:
where each bytecode instruction starts, where the stub calls are and how the frame looks
around them, and where the inline caches are.
-/

namespace FastPath

/-- A stub call, from which execution may have to continue in the interpreter. -/
structure RejoinSite where
  /-- The operation that makes the call. -/
  pc : Nat
  /-- The operation that follows it. -/
  resumePc : Nat
  /-- The call. -/
  call : Offset
  sp : Nat
  /-- The stack pointer once the operation has completed. -/
  spAfter : Nat
  /-- Stack slots that the operation writes. -/
  changes : Nat
  /-- Where the slow path merges into the fast stream, unless it branches. -/
  rejoin : Option Offset
  /-- The promised types of the result, if the result is monitored. -/
  monitored : Option UInt8
deriving DecidableEq, Repr, Inhabited

/-- The result is taken as it is, whatever its type. -/
def RejoinSite.reenters (s : RejoinSite) : Bool := s.monitored.isNone

/-- The two accesses that are cached. -/
inductive CacheKind where
  | get
  | set
deriving DecidableEq, Repr, Inhabited

/-- Where the key of a cached access is when the class guard trips. -/
inductive CacheKey where
  | constant (i : Int32)
  /-- A payload register, with the tag in a register or known. -/
  | reg (tag : Option Reg) (payload : Reg) (knownTag : Option UInt64)
deriving DecidableEq, Repr, Inhabited

/-- An inline cache in code whose positions have the given type. -/
structure CacheLayout (Position : Type) where
  kind : CacheKind
  pc : Nat
  /-- Where the inline path starts; a megamorphic cache goes to its slow path here. -/
  start : Position
  /-- The guard whose failure tries the learned cases. -/
  classGuard : Position
  /-- Where control continues after the inline path or a learned case. -/
  rejoin : Position
  slowStart : Position
  /-- The register that holds the container. -/
  obj : Reg
  key : CacheKey
  /-- The value written. -/
  value : Option Source
  /-- The registers for tag and payload of the value read. -/
  result : Option (Reg × Reg)
  /-- The registers that the generic call keeps. -/
  preserved : RegMask
deriving DecidableEq, Repr, Inhabited

/-- The same cache with its positions replaced. -/
def CacheLayout.map {α β : Type} (f : α → β) (c : CacheLayout α) : CacheLayout β where
  kind := c.kind
  pc := c.pc
  start := f c.start
  classGuard := f c.classGuard
  rejoin := f c.rejoin
  slowStart := f c.slowStart
  obj := c.obj
  key := c.key
  value := c.value
  result := c.result
  preserved := c.preserved

/-- The finished code of a function. -/
structure Code where
  name : String
  /-- The fast stream, then the slow stream. -/
  insts : Array Inst
  fastLength : Nat
  /-- Where each bytecode instruction starts, if it has code. -/
  pcOffsets : Array (Option Offset)
  /-- The stub calls, in the order in which they were emitted. -/
  sites : Array RejoinSite
  caches : Array (CacheLayout Offset)
  argCount : Nat
  localCount : Nat
  /-- Slots that a frame needs. -/
  frameSize : Nat
  /-- How many cases a cache may learn. -/
  cacheLimit : Nat
deriving DecidableEq, Repr, Inhabited

/-- The index of the last element that satisfies `p`. -/
def lastIndexOf? {α : Type} (p : α → Bool) (xs : Array α) : Option Nat :=
  (xs.toList.reverse.findIdx? p).map fun i => xs.size - 1 - i

namespace Code

/-- Length of the slow stream. -/
def slowLength (c : Code) : Nat := c.insts.size - c.fastLength

/-- Where the code of a bytecode instruction starts. -/
def offset? (c : Code) (pc : Nat) : Option Offset := (c.pcOffsets[pc]?).join

/-- Number of stub calls. -/
def callCount (c : Code) : Nat := c.insts.toList.countP Inst.isCall

/-- Number of stub calls in the fast stream. -/
def fastCallCount (c : Code) : Nat := (c.insts.toList.take c.fastLength).countP Inst.isCall

/-- The site of the call at a position. -/
def siteIndex? (c : Code) (call : Offset) : Option Nat :=
  lastIndexOf? (fun s => s.call == call) c.sites

/-- The cache whose class guard is at a position. -/
def guardCache? (c : Code) (position : Offset) : Option CacheId :=
  lastIndexOf? (fun s => s.classGuard == position) c.caches

/-- The cache whose inline path starts at a position. -/
def startCache? (c : Code) (position : Offset) : Option CacheId :=
  lastIndexOf? (fun s => s.start == position) c.caches

end Code

/-- Finished code with what its caches have learned. -/
structure LiveCode where
  code : Code
  states : Array CacheState
deriving DecidableEq, Repr, Inhabited

namespace LiveCode

/-- Code whose caches have learned nothing. -/
def ofCode (c : Code) : LiveCode := ⟨c, Array.replicate c.caches.size .fresh⟩

/-- The state of a cache. -/
def state? (l : LiveCode) (cache : CacheId) : Option CacheState := l.states[cache]?

/-- Teach a cache a case. -/
def learn (l : LiveCode) (cache : CacheId) (case : CacheCase) :
    Option LearnOutcome × LiveCode :=
  match l.states[cache]? with
  | none => (none, l)
  | some s =>
    let (outcome, s) := s.learn case l.code.cacheLimit
    (some outcome, { l with states := l.states.setIfInBounds cache s })

end LiveCode

end FastPath
