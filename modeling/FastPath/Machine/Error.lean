import FastPath.Target.Inst

/-!
# Faults of compiled code

A fault means that the code itself is wrong: it reads a register that a call has not kept,
a slot outside its frame, an element outside its storage. A failing generic operation is
no fault.
-/

namespace FastPath

/-- A fault at a position of the code. -/
inductive Fault where
  /-- A heap access that a guard should have ruled out. -/
  | heap (e : OpError)
  | noEntry
  | offsetOutOfRange (position : Offset)
  | invalidReg (r : Reg) (position : Offset)
  | invalidFReg (r : FReg) (position : Offset)
  | clobberedReg (r : Reg) (position : Offset)
  | clobberedFReg (r : FReg) (position : Offset)
  | slotOutOfRange (slot : Slot) (position : Offset)
  /-- An element or named slot outside the storage of its object. -/
  | elementOutOfRange (index : Nat) (position : Offset)
  | unknownCache (cache : CacheId)
  | missingSite (position : Offset)
  /-- A class guard whose condition is no equality. -/
  | classOrdering (cond : Cond) (position : Offset)
  /-- A cached read that has no registers for its result. -/
  | noCacheResult (cache : CacheId) (position : Offset)
  /-- A cached write that has no value. -/
  | noCacheValue (cache : CacheId) (position : Offset)
  /-- A cache key whose tag is nowhere. -/
  | untaggedKey (position : Offset)
  | stepLimit (limit : Nat)
deriving DecidableEq, Repr, Inhabited

namespace Fault

/-- An instruction that makes no sense. -/
def invalidInstruction (position : Offset) (detail : String) : String :=
  s!"invalid instruction at offset {position}: {detail}"

/-- The wording of a fault. -/
def message : Fault → String
  | heap e => "runtime fault in compiled code: " ++ e.message
  | noEntry => "compiled code has no entry point"
  | offsetOutOfRange p => s!"control reached offset {p} outside the code"
  | invalidReg r p =>
    let n := r.name
    s!"invalid register {n} at offset {p}"
  | invalidFReg r p =>
    let n := r.name
    s!"invalid register {n} at offset {p}"
  | clobberedReg r p =>
    let n := r.name
    s!"read of clobbered register {n} at offset {p}"
  | clobberedFReg r p =>
    let n := r.name
    s!"read of clobbered register {n} at offset {p}"
  | slotOutOfRange slot p => s!"frame slot {slot} out of range at offset {p}"
  | elementOutOfRange i p => s!"object storage index {i} out of range at offset {p}"
  | unknownCache c => s!"unknown IC {c}"
  | missingSite p => s!"stub call at offset {p} has no rejoin site"
  | classOrdering cond p =>
    invalidInstruction p ("class guard with ordering condition " ++ cond.name)
  | noCacheResult c p => invalidInstruction p s!"getelem IC {c} has no result registers"
  | noCacheValue c p => invalidInstruction p s!"setelem IC {c} has no value source"
  | untaggedKey p =>
    invalidInstruction p "IC key with neither a tag register nor a known tag"
  | stepLimit limit => s!"step limit of {limit} instructions exceeded"

end Fault

end FastPath
