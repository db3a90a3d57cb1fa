import FastPath.Bytecode.Flow
import FastPath.Target.Operand
import FastPath.Types.Known

/-!
# Errors of compilation

A function that cannot be compiled is interpreted instead. Apart from malformed bytecode
every error here reports that the compiler has contradicted itself: a register used for
two things, an exit that would restore the wrong frame, a stack that came out at the wrong
height.
-/

namespace FastPath

/-- The compilation of one operation goes through these states. -/
inductive Lifecycle where
  | unanalyzed
  /-- A strategy has been chosen. -/
  | classified
  /-- Guarded inline code has been emitted. -/
  | inlineEmitted
  /-- Only a stub call has been emitted. -/
  | genericOnly
  /-- Every guard leads to a slow path. -/
  | guardsLinked
  /-- The slow paths have been merged back. -/
  | rejoined
deriving DecidableEq, Repr, Inhabited

namespace Lifecycle

/-- Every state. -/
def all : List Lifecycle :=
  [unanalyzed, classified, inlineEmitted, genericOnly, guardsLinked, rejoined]

/-- The legal steps. An operation made of several goes round again from `rejoined`. -/
def canAdvance : Lifecycle → Lifecycle → Bool
  | unanalyzed, classified
  | classified, inlineEmitted
  | classified, genericOnly
  | inlineEmitted, guardsLinked
  | genericOnly, guardsLinked
  | guardsLinked, rejoined
  | rejoined, classified => true
  | _, _ => false

/-- The name of a state. -/
def name : Lifecycle → String
  | unanalyzed => "Unanalyzed"
  | classified => "Classified"
  | inlineEmitted => "InlineEmitted"
  | genericOnly => "GenericOnly"
  | guardsLinked => "GuardsLinked"
  | rejoined => "Rejoined"

end Lifecycle

/-- An exit that would restore a frame other than the current one. -/
inductive Staleness where
  /-- Exits taken at different states of the frame. -/
  | mixedExits
  /-- The frame changed after a guard. -/
  | frameChanged
  /-- The code that restores the frame is older than the frame. -/
  | olderLabel
  /-- A slow path ends while exits wait for one. -/
  | rejoinedEarly
  /-- An operation ends while exits wait for a call. -/
  | neverCalled
  /-- An operation ends while exits wait for a slow path. -/
  | noSlowPath
deriving DecidableEq, Repr, Inhabited

/-- The wording of a stale exit. -/
def Staleness.message : Staleness → String
  | mixedExits => "deferred exits taken at different generations"
  | frameChanged => "the frame changed between a guard and its exit"
  | olderLabel => "sync label emitted for an older frame state"
  | rejoinedEarly => "rejoining with exits that never reached a call"
  | neverCalled => "guards never linked to a call"
  | noSlowPath => "guards left without a slow path"

/-- A contradiction in the compiler's own bookkeeping. -/
inductive Violation where
  | tagOperandOf (type : KnownType)
  | cannotLearn (type : KnownType)
  /-- A type learned for a number that sits in a double register. -/
  | learnsHeldDouble (type : KnownType) (reg : FReg)
  | typedPush (type : KnownType)
  | pushedNoTemp (reg : Reg)
  | pushedNoDoubleTemp (reg : FReg)
  | alreadyTemp (reg : Reg)
  | isPinned (reg : Reg)
  | freedNoTemp (reg : Reg)
  | freedNoDoubleTemp (reg : FReg)
  | payloadOfConstant
  | payloadOfDouble
  | tagOfKnown
  | doubleOf (type : KnownType)
  | doubleInReg (reg : Reg)
  | payloadCopyOfDouble
  | tagCopyOfDouble
  | constantIsNoNumber
  | transferUp (source target : Slot)
  | storeDown (source target : Slot)
  | liveRegisters (temps pinned : Nat)
  | badCopy (slot backing : Slot)
  | payloadNotHeld (reg : Reg) (slot : Slot)
  | doubleNotHeld (reg : FReg) (slot : Slot)
  | tagNotHeld (reg : Reg) (slot : Slot)
  | callWithoutRejoin
  | callNeverCompleted
  | notANumber (constant : Nat)
  | notAString (constant : Nat)
  | convertedWithoutRegister
  | denseStringKey
  | noLengthRegister
  | refutedGuard
  | nullishWithoutTags
  | resultRegister
deriving DecidableEq, Repr, Inhabited

/-- How a slot is written in messages. -/
def slotName (slot : Slot) : String := s!"FrameSlot({slot})"

namespace Violation

/-- The wording of a contradiction. -/
def message : Violation → String
  | tagOperandOf t =>
    let n := t.name
    s!"tag operand requested for a {n} entry"
  | cannotLearn t => "cannot learn " ++ t.name
  | learnsHeldDouble t r =>
    let n := t.name
    let f := r.name
    s!"learning {n} for a double held in {f}"
  | typedPush t => "typed payload push of " ++ t.name
  | pushedNoTemp r => r.name ++ " pushed without being a temp"
  | pushedNoDoubleTemp r => r.name ++ " pushed without being a temp"
  | alreadyTemp r => r.name ++ " is already a temp"
  | isPinned r => r.name ++ " is pinned"
  | freedNoTemp r =>
    let n := r.name
    s!"freeing {n}, which is not a temp"
  | freedNoDoubleTemp r =>
    let n := r.name
    s!"freeing {n}, which is not a temp"
  | payloadOfConstant => "payload register requested for a constant"
  | payloadOfDouble => "payload register requested for a double in an FPR"
  | tagOfKnown => "tag register requested for a known type"
  | doubleOf t =>
    let n := t.name
    s!"FPR requested for a {n} entry"
  | doubleInReg r => "double held in " ++ r.name
  | payloadCopyOfDouble => "payload copy requested for a double in an FPR"
  | tagCopyOfDouble => "tag copy requested for a double in an FPR"
  | constantIsNoNumber => "non-number constant loaded as a double"
  | transferUp s t =>
    let a := slotName s
    let b := slotName t
    s!"transfer from {a} up to {b}"
  | storeDown s t =>
    let a := slotName s
    let b := slotName t
    s!"store from {a} down to {b}"
  | liveRegisters temps pinned => s!"{temps} temps and {pinned} pinned registers live"
  | badCopy s b =>
    let x := slotName s
    let y := slotName b
    s!"{x} copies {y}"
  | payloadNotHeld r s =>
    let n := r.name
    let x := slotName s
    s!"{n} does not hold the payload of {x}"
  | doubleNotHeld r s =>
    let n := r.name
    let x := slotName s
    s!"{n} does not hold {x}"
  | tagNotHeld r s =>
    let n := r.name
    let x := slotName s
    s!"{n} does not hold the tag of {x}"
  | callWithoutRejoin => "stub call without a rejoin"
  | callNeverCompleted => "stub call never completed"
  | notANumber c => s!"constant {c} is not a number"
  | notAString c => s!"constant {c} is not a string"
  | convertedWithoutRegister => "converted operand without a register"
  | denseStringKey => "dense element access with a string key"
  | noLengthRegister => "no register for the bumped length"
  | refutedGuard => "operand classified for a guard it cannot pass"
  | nullishWithoutTags => "nullish test without tags"
  | resultRegister => "compare result register does not match fusion"

end Violation

/-- An error of compilation. -/
inductive CompileError where
  | bytecode (e : Bytecode.Error)
  | flow (e : Bytecode.FlowError)
  | unlinkedJump (offset : Offset)
  /-- The place of a label is no 32-bit word. -/
  | offsetOverflow
  | effectMismatch (pc : Nat) (opcode : Bytecode.Opcode) (expected found : Int)
  | lifecycle (pc : Nat) (source target : Lifecycle)
  | staleExit (pc : Nat) (cause : Staleness)
  | violation (pc : Nat) (cause : Violation)
  | registersExhausted (pc : Nat)
  /-- A string constant that the heap does not know. -/
  | unlinkedString (pc : Nat)
deriving DecidableEq, Repr, Inhabited

namespace CompileError

/-- The wording of an error. -/
def message : CompileError → String
  | bytecode e => e.message
  | flow e => e.message
  | unlinkedJump offset => s!"unlinked jump at code offset {offset}"
  | offsetOverflow => "attempt to add with overflow"
  | effectMismatch pc opcode expected found =>
    let name := opcode.name
    let e := Numeral.ofInt expected
    let f := Numeral.ofInt found
    s!"stack effect mismatch at pc {pc} ({name}): expected {e}, found {f}"
  | lifecycle pc source target =>
    let a := source.name
    let b := target.name
    s!"illegal lifecycle transition at pc {pc}: {a} -> {b}"
  | staleExit pc cause =>
    let detail := cause.message
    s!"stale exit at pc {pc}: {detail}"
  | violation pc cause =>
    let detail := cause.message
    s!"invariant violation at pc {pc}: {detail}"
  | registersExhausted pc => s!"register file exhausted at pc {pc}"
  | unlinkedString pc => s!"string constant at pc {pc} is not interned in the heap"

end CompileError

end FastPath
