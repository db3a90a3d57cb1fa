import FastPath.Target.Operand

/-!
# The register file

The allocator's view of the registers: what each one holds and whether it is pinned.
Registers are handed out as temporaries, in order of their numbers; when none is free, the
one that holds a slot and was used least recently is taken. Use is measured by a clock
that ticks whenever a register is taken, bound or touched.
-/

namespace FastPath

/-- What a register holds. -/
inductive Binding where
  | free
  /-- The payload of a slot, or its number in a double register. -/
  | data (slot : Slot)
  /-- The tag of a slot. -/
  | tag (slot : Slot)
  /-- A scratch value of the emitter, never evicted. -/
  | temp
deriving DecidableEq, Repr, Inhabited

namespace Binding

/-- The slot that a binding belongs to. -/
def slot? : Binding → Option Slot
  | data s | tag s => some s
  | free | temp => none

/-- Holds the data of some slot. -/
def isData : Binding → Bool
  | data _ => true
  | _ => false

end Binding

/-- The state of one register. -/
structure RegState where
  binding : Binding
  pinned : Bool
  lastUse : Nat
deriving DecidableEq, Repr, Inhabited

/-- A register that holds nothing. -/
def RegState.unused : RegState := ⟨.free, false, 0⟩

/-- A register that may be handed out. -/
def RegState.isAvailable (s : RegState) : Bool := s.binding = .free && !s.pinned

/-- The registers of one kind. -/
abbrev Bank (n : Nat) := Vector RegState n

namespace Bank

variable {n : Nat}

/-- All registers unused. -/
def unused : Bank n := Vector.replicate n .unused

/-- What a register holds; registers that do not exist hold nothing. -/
def binding (b : Bank n) (i : Nat) : Binding := (b[i]?.map (·.binding)).getD .free

/-- A register is pinned. -/
def isPinned (b : Bank n) (i : Nat) : Bool := (b[i]?.map (·.pinned)).getD false

/-- Change the state of a register. -/
def update (b : Bank n) (i : Nat) (f : RegState → RegState) : Bank n :=
  match b[i]? with
  | some s => b.setIfInBounds i (f s)
  | none => b

/-- The first register that may be handed out. -/
def firstAvailable? (b : Bank n) : Option Nat := b.toList.findIdx? RegState.isAvailable

/-- Of two numbered states, the one used less recently; the first wins a tie. -/
def older (a b : RegState × Nat) : RegState × Nat :=
  if b.1.lastUse < a.1.lastUse then b else a

/-- The least recently used register that is not pinned and satisfies `p`. -/
def oldest? (b : Bank n) (p : Binding → Bool) : Option Nat :=
  match b.toList.zipIdx.filter fun (s, _) => p s.binding && !s.pinned with
  | [] => none
  | s :: ss => some (ss.foldl older s).2

/-- The registers that satisfy `p`, in order. -/
def indices (b : Bank n) (p : RegState → Bool) : List Nat :=
  (b.toList.zipIdx.filter fun (s, _) => p s).map (·.2)

end Bank

/-- The register file. -/
structure RegisterFile where
  regs : Bank Reg.count
  fregs : Bank FReg.allocatable
  clock : Nat
deriving Repr, Inhabited

namespace RegisterFile

/-- All registers unused. -/
def new : RegisterFile := ⟨Bank.unused, Bank.unused, 0⟩

/-- Forget every binding and pin; the clock goes on. -/
def reset (f : RegisterFile) : RegisterFile := ⟨Bank.unused, Bank.unused, f.clock⟩

/-! ### General registers -/

/-- What a register holds. -/
def binding (f : RegisterFile) (r : Reg) : Binding := f.regs.binding r.index

/-- A register is pinned. -/
def isPinned (f : RegisterFile) (r : Reg) : Bool := f.regs.isPinned r.index

/-- Change what a register holds; this is a use. -/
def bind (f : RegisterFile) (r : Reg) (b : Binding) : RegisterFile :=
  { f with
    regs := f.regs.update r.index fun s => { s with binding := b, lastUse := f.clock + 1 }
    clock := f.clock + 1 }

/-- Note a use of a register. -/
def touch (f : RegisterFile) (r : Reg) : RegisterFile :=
  { f with
    regs := f.regs.update r.index fun s => { s with lastUse := f.clock + 1 }
    clock := f.clock + 1 }

/-- Keep a register from being evicted, or stop doing so. -/
def setPinned (f : RegisterFile) (r : Reg) (pinned : Bool) : RegisterFile :=
  { f with regs := f.regs.update r.index fun s => { s with pinned } }

/-- Hand out an available register. -/
def take? (f : RegisterFile) : Option (Reg × RegisterFile) :=
  f.regs.firstAvailable?.map fun i => (⟨i⟩, f.bind ⟨i⟩ .temp)

/-- The register to evict when none is available. -/
def victim? (f : RegisterFile) : Option Reg :=
  (f.regs.oldest? fun b => b.slot?.isSome).map Reg.mk

/-- The registers bound to a slot. -/
def boundTo (f : RegisterFile) (slot : Slot) : List Reg :=
  (f.regs.indices fun s => s.binding.slot? = some slot).map Reg.mk

/-! ### Double registers -/

/-- What a double register holds. -/
def fbinding (f : RegisterFile) (r : FReg) : Binding := f.fregs.binding r.index

/-- A double register is pinned. -/
def isFPinned (f : RegisterFile) (r : FReg) : Bool := f.fregs.isPinned r.index

/-- Change what a double register holds; this is a use. -/
def fbind (f : RegisterFile) (r : FReg) (b : Binding) : RegisterFile :=
  { f with
    fregs := f.fregs.update r.index fun s => { s with binding := b, lastUse := f.clock + 1 }
    clock := f.clock + 1 }

/-- Note a use of a double register. -/
def ftouch (f : RegisterFile) (r : FReg) : RegisterFile :=
  { f with
    fregs := f.fregs.update r.index fun s => { s with lastUse := f.clock + 1 }
    clock := f.clock + 1 }

/-- Keep a double register from being evicted, or stop doing so. -/
def setFPinned (f : RegisterFile) (r : FReg) (pinned : Bool) : RegisterFile :=
  { f with fregs := f.fregs.update r.index fun s => { s with pinned } }

/-- Hand out an available double register. -/
def ftake? (f : RegisterFile) : Option (FReg × RegisterFile) :=
  f.fregs.firstAvailable?.map fun i => (⟨i⟩, f.fbind ⟨i⟩ .temp)

/-- The double register to evict when none is available. -/
def fvictim? (f : RegisterFile) : Option FReg := (f.fregs.oldest? Binding.isData).map FReg.mk

/-! ### Counts -/

/-- Registers held as temporaries. -/
def tempCount (f : RegisterFile) : Nat :=
  (f.regs.toList ++ f.fregs.toList).countP fun s => s.binding = .temp

/-- Registers that are pinned. -/
def pinnedCount (f : RegisterFile) : Nat :=
  (f.regs.toList ++ f.fregs.toList).countP fun s => s.pinned

/-- The registers that are not free. -/
def inUse (f : RegisterFile) : RegMask :=
  RegMask.ofLists ((f.regs.indices fun s => s.binding ≠ .free).map Reg.mk)
    ((f.fregs.indices fun s => s.binding ≠ .free).map FReg.mk)

end RegisterFile

end FastPath
