import FastPath.Value

/-!
# Bailouts

Compiled code hands control back to the interpreter in two cases: a stub failed, or a
stub at a monitored site gave a result of a type that was not promised. The frame is
stored before every stub call, so the interpreter can go on from memory.
-/

namespace FastPath

/-- Why compiled code handed back control. -/
inductive BailoutReason where
  /-- A generic operation failed. -/
  | stubFailure
  /-- A result outside its promised types. -/
  | typeBarrier
deriving DecidableEq, Repr, Inhabited

/-- The state in which the interpreter goes on. -/
structure Bailout where
  reason : BailoutReason
  /-- The operation that failed, or the one after the operation that completed. -/
  pc : Nat
  sp : Nat
  /-- The slots below `sp`. -/
  frame : List Value
  /-- The failure. -/
  error : Option OpError
deriving DecidableEq, Repr, Inhabited

/-- The operand stack, above `base` slots of arguments and locals. -/
def Bailout.stack (b : Bailout) (base : Nat) : List Value := b.frame.drop base

/-! ### Giving up -/

/-- What to do about a bailout. -/
inductive BailoutAction where
  /-- Keep the code. -/
  | proceed
  /-- Compile again, with fresh type facts. -/
  | recompile
  /-- Never compile the function again. -/
  | abandon
deriving DecidableEq, Repr, Inhabited

/-- The bailouts of one function. -/
structure BailoutTracker where
  threshold : Nat
  count : Nat
  abandoned : Bool
deriving DecidableEq, Repr, Inhabited

namespace BailoutTracker

/-- Bailouts after which a function is given up, unless told otherwise. -/
def defaultThreshold : Nat := 10

/-- No bailouts yet. The threshold is at least one. -/
def new (threshold : Nat) : BailoutTracker := ⟨max threshold 1, 0, false⟩

/-- Counts end at the largest 32-bit number. -/
def maxCount : Nat := UInt32.size - 1

/-- Count a bailout and say what to do about it. -/
def record (t : BailoutTracker) (reason : BailoutReason) : BailoutAction × BailoutTracker :=
  if t.abandoned then (.abandon, t)
  else
    let count := min (t.count + 1) maxCount
    if t.threshold ≤ count then (.abandon, { t with count, abandoned := true })
    else if reason = .typeBarrier then (.recompile, { t with count })
    else (.proceed, { t with count })

end BailoutTracker

end FastPath
