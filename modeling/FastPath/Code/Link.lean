import FastPath.Compile.Error
import FastPath.Target.Buffer

/-!
# Linking

Linking lays the slow stream behind the fast one and gives every branch its target. Each
recorded link must name a branch; afterwards no branch may be left without a target. Offsets are
32-bit words: where the length of the fast stream is added to one, the sum has to be a word too.
-/

namespace FastPath

/-- The position in finished code as a word. An addition that overflows stops the compiler. -/
def Label.absolute (l : Label) (fastLength : Nat) : Except CompileError Offset :=
  if l.position fastLength < UInt32.size then .ok (l.position fastLength)
  else .error .offsetOverflow

namespace LinkTarget

/-- The position that a target stands for; a bytecode instruction needs a label. -/
def resolve (pcs : Array (Option Label)) (fastLength : Nat) :
    LinkTarget → Except CompileError Offset
  | label l => l.absolute fastLength
  | pc n =>
    match (pcs[n]?).join with
    | some l => l.absolute fastLength
    | none => .error (.flow (.invalidJumpTarget n))

end LinkTarget

namespace Link

/-- Give one branch its target. -/
def apply (pcs : Array (Option Label)) (fastLength : Nat) (insts : Array Inst) (l : Link) :
    Except CompileError (Array Inst) := do
  let target ← l.target.resolve pcs fastLength
  let position ← l.jump.absolute fastLength
  match insts[position]?.bind (Inst.retarget? target) with
  | some i => return insts.setIfInBounds position i
  | none => .error (.unlinkedJump position)

end Link

namespace CodeBuffer

/-- The two streams one after the other. -/
def laidOut (b : CodeBuffer) : Array Inst := b.fast ++ b.slow

/-- Finish the code: every branch gets its target. Gives the length of the fast stream as well. -/
def finish (b : CodeBuffer) (pcs : Array (Option Label)) :
    Except CompileError (Array Inst × Nat) := do
  let insts ← b.links.toList.foldlM (Link.apply pcs b.fast.size) b.laidOut
  match insts.findIdx? Inst.isUnlinked with
  | some position => .error (.unlinkedJump position)
  | none => return (insts, b.fast.size)

end CodeBuffer

end FastPath
