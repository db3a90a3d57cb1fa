import FastPath.Bytecode.Instr
import FastPath.Types.Set

/-!
# Type facts and hoisting

The compiler consults two outside sources. The oracle supplies types of variables and
results; a fact is guarded unless the result is monitored, in which case a stub that
observes another type ends the compiled activation. The hoister answers whether a bounds
check on an array variable has been moved out of the enclosing loop.
-/

namespace FastPath

/-- Type facts about one function. -/
structure Oracle where
  /-- Types of what the instruction at a pc pushes. -/
  pushed : Nat → TypeSet
  /-- Types of a variable anywhere in the function. -/
  var : Bytecode.Var → TypeSet
  /-- The result at a pc is checked against `pushed` when a stub produces it. -/
  monitored : Nat → Bool

/-- The oracle that knows nothing. -/
def Oracle.silent : Oracle where
  pushed _ := .unknown
  var _ := .unknown
  monitored _ := false

/-- A question to the hoister: may the bounds check of the access at `pc`, on the array in
a variable, be left out? -/
structure HoistQuery where
  pc : Nat
  container : Bytecode.Var
  /-- How far the index moves in each round of the loop. -/
  bump : Int32
deriving DecidableEq, Repr, Inhabited

/-- The hoister: its answer may depend on the questions asked before. -/
abbrev Hoister := List HoistQuery → HoistQuery → Bool

/-- The hoister that never hoists. -/
def Hoister.never : Hoister := fun _ _ => false

/-- The hoister that allows the listed checks. -/
def Hoister.ofList (allowed : List (Nat × Bytecode.Var)) : Hoister :=
  fun _ q => allowed.contains (q.pc, q.container)

end FastPath
