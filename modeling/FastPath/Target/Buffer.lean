import FastPath.Target.Inst

/-!
# Code streams

Code is emitted into two streams: the fast stream holds the guarded inline paths, the
slow stream what happens when a guard trips. Branches are emitted without a target; the
buffer records where each one is to lead.
-/

namespace FastPath

/-- One of the two streams. -/
inductive Stream where
  | fast
  | slow
deriving DecidableEq, Hashable, Repr, Inhabited

/-- A position in a stream. -/
structure Label where
  stream : Stream
  offset : Nat
deriving DecidableEq, Hashable, Repr, Inhabited

/-- A branch that waits for its target, named by its position. -/
abbrev Jump := Label

/-- Where a branch is to lead. -/
inductive LinkTarget where
  | label (l : Label)
  /-- The fast code of a bytecode instruction. -/
  | pc (pc : Nat)
deriving DecidableEq, Repr, Inhabited

/-- A branch and where it is to lead. -/
structure Link where
  jump : Jump
  target : LinkTarget
deriving DecidableEq, Repr, Inhabited

/-- The position in finished code, where the slow stream follows the fast one. -/
def Label.position (l : Label) (fastLength : Nat) : Offset :=
  match l.stream with
  | .fast => l.offset
  | .slow => fastLength + l.offset

/-- Both streams and the links between them. -/
structure CodeBuffer where
  fast : Array Inst
  slow : Array Inst
  links : Array Link
deriving DecidableEq, Repr, Inhabited

namespace CodeBuffer

/-- The buffer without code. -/
def empty : CodeBuffer := ⟨#[], #[], #[]⟩

/-- The instructions of a stream. -/
def stream (b : CodeBuffer) : Stream → Array Inst
  | .fast => b.fast
  | .slow => b.slow

/-- The current end of a stream. -/
def label (b : CodeBuffer) (s : Stream) : Label := ⟨s, (b.stream s).size⟩

/-- Append an instruction. -/
def emit (b : CodeBuffer) (s : Stream) (i : Inst) : CodeBuffer :=
  match s with
  | .fast => { b with fast := b.fast.push i }
  | .slow => { b with slow := b.slow.push i }

/-- Append several instructions. -/
def emitAll (b : CodeBuffer) (s : Stream) (is : List Inst) : CodeBuffer :=
  is.foldl (·.emit s ·) b

/-- Append a branch without target. -/
def emitBranch (b : CodeBuffer) (s : Stream) (g : Guard) : Jump × CodeBuffer :=
  (b.label s, b.emit s (.branch g Inst.unlinked))

/-- Record where a branch leads. -/
def link (b : CodeBuffer) (jump : Jump) (target : LinkTarget) : CodeBuffer :=
  { b with links := b.links.push ⟨jump, target⟩ }

/-- Record that several branches lead to one label. -/
def linkAll (b : CodeBuffer) (jumps : List Jump) (l : Label) : CodeBuffer :=
  jumps.foldl (·.link · (.label l)) b

end CodeBuffer

end FastPath
