import FastPath.Compile.Context

/-!
# Type guards

A guard trips when its assumption does not hold, so it is always an exit. The numbering of
the tags makes "is a number" one comparison. A guard that is decided by what the frame
knows emits nothing.
-/

namespace FastPath

namespace AsmM

/-- Branch if a tag is the given one. -/
def branchTag (stream : Stream) (tag : Operand) (t : Tag) : AsmM Jump :=
  branch stream (.compare .equal tag (.ofTag t))

/-- Branch if a tag is not the given one. -/
def branchNotTag (stream : Stream) (tag : Operand) (t : Tag) : AsmM Jump :=
  branch stream (.compare .notEqual tag (.ofTag t))

/-- Branch if a tag is not that of a number. -/
def branchNotNumber (tag : Operand) : AsmM Jump :=
  branch .fast (.compare (.unsigned .gt) tag (.ofTag .numberMax))

end AsmM

/-- What guarding an assumption comes to. -/
inductive Guarded where
  /-- It holds. -/
  | proven
  /-- It does not hold. -/
  | refuted
  /-- It is tested; the branch is taken when it fails. -/
  | exit (jump : Jump)
deriving DecidableEq, Repr, Inhabited

namespace CompileM

/-- Guard that a slot has a tag. A known number may have either number tag in memory. -/
def guardTag (slot : Slot) (t : Tag) : AsmM Guarded := do
  let f ← AsmM.frame
  match f.knownType slot with
  | .unknown => return .exit (← AsmM.branchNotTag .fast (← FrameM.tagOperand slot) t)
  | .double =>
    if t = .int32 ∧ (f.constant? slot).isNone then
      return .exit (← AsmM.branchNotTag .fast (.tag (f.backing slot)) t)
    else return .refuted
  | known => return if known.tag? = some t then .proven else .refuted

/-- Guard that a slot is a number. -/
def guardNumber (slot : Slot) : AsmM Guarded := do
  let f ← AsmM.frame
  match f.knownType slot with
  | .unknown => return .exit (← AsmM.branchNotNumber (← FrameM.tagOperand slot))
  | known => return if known.isNumber then .proven else .refuted

/-- Let the exit of a guard wait for the slow path. The operand has been classified
before, so the assumption cannot be refuted. -/
def linkGuard : Guarded → CompileM Unit
  | .exit jump => AsmM.linkExit jump
  | .proven => return
  | .refuted => fail .refutedGuard

end CompileM

end FastPath
