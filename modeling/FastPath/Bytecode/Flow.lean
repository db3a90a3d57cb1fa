import FastPath.Bytecode.Function

/-!
# Control flow

Before a function is compiled every path from its entry is walked once. The walk finds
the stack depth at each reachable pc, the pcs that jumps land on and the loop heads, and
fails if a path leaves the function, pops more than the stack holds, or meets another path
at a different depth.

The walk keeps a list of configurations `(pc, depth)` still to visit. It ends because a
visit settles a pc that had no depth before; a configuration whose pc is settled is only
compared.
-/

namespace FastPath.Bytecode

/-- A path that control must not take. -/
inductive FlowError where
  /-- A jump at `pc` that leads to no instruction. -/
  | invalidJumpTarget (pc : Nat)
  /-- The instruction at `pc` pops more than the stack holds. -/
  | stackUnderflow (pc : Nat)
  /-- Two paths reach `pc` at different depths. -/
  | depthMismatch (pc expected found : Nat)
  /-- Control falls past the last instruction. -/
  | fallsOffEnd (pc : Nat)
deriving DecidableEq, Repr, Inhabited

/-- The wording of a flow error. -/
def FlowError.message : FlowError → String
  | invalidJumpTarget pc => s!"invalid jump target at pc {pc}"
  | stackUnderflow pc => s!"stack underflow at pc {pc}"
  | depthMismatch pc expected found =>
    s!"stack depth mismatch at pc {pc}: expected {expected}, found {found}"
  | fallsOffEnd pc => s!"control falls off the end after pc {pc}"

/-- What is known about the control flow of a function. -/
structure Flow where
  /-- Stack depth on entry to each pc, if it is reachable. -/
  depths : Array (Option Nat)
  /-- The pcs some jump lands on. -/
  jumpTargets : Array Bool
  /-- The pcs a backward jump lands on. -/
  loopHeads : Array Bool
  /-- The deepest stack anywhere. -/
  maxDepth : Nat
deriving DecidableEq, Repr, Inhabited

namespace Flow

/-- Nothing is known yet about `n` instructions. -/
def unvisited (n : Nat) : Flow where
  depths := Array.replicate n none
  jumpTargets := Array.replicate n false
  loopHeads := Array.replicate n false
  maxDepth := 0

/-- Stack depth on entry to `pc`, if it is reachable. -/
def depth? (a : Flow) (pc : Nat) : Option Nat := (a.depths[pc]?).join

/-- Some jump lands on `pc`. -/
def isJumpTarget (a : Flow) (pc : Nat) : Bool := a.jumpTargets.getD pc false

/-- `pc` is reachable from the entry. -/
def isReachable (a : Flow) (pc : Nat) : Bool := (a.depth? pc).isSome

end Flow

/-- What one instruction contributes to the walk. -/
structure Visit where
  /-- Where a jump lands. -/
  target : Option Nat
  /-- Configurations that follow, the fall-through first. -/
  next : List (Nat × Nat)

/-- The depth after an instruction at `pc`. -/
def depthAfter (pc depth : Nat) (e : Instr.StackEffect) : Except FlowError Nat :=
  if depth < e.uses then .error (.stackUnderflow pc) else .ok (depth - e.uses + e.defs)

/-- The taken edge of the instruction at `pc`, if it jumps. -/
def takenEdge (f : Function) (pc depth : Nat) (i : Instr) :
    Except FlowError (Option (Nat × Nat)) :=
  match i.takenEffect? with
  | none => .ok none
  | some effect =>
    match f.jumpTarget? pc with
    | none => .error (.invalidJumpTarget pc)
    | some target => (depthAfter pc depth effect).map fun d => some (target, d)

/-- The fall-through edge of the instruction at `pc`, unless it ends its path. -/
def fallEdge (f : Function) (pc depth : Nat) (i : Instr) :
    Except FlowError (Option (Nat × Nat)) :=
  if i.isTerminator then .ok none
  else
    match depthAfter pc depth i.stackEffect with
    | .error e => .error e
    | .ok d => if pc + 1 < f.code.size then .ok (some (pc + 1, d)) else .error (.fallsOffEnd pc)

/-- Follow the edges of the instruction at `pc`. -/
def visit (f : Function) (pc depth : Nat) (i : Instr) : Except FlowError Visit := do
  let taken ← takenEdge f pc depth i
  let fall ← fallEdge f pc depth i
  return ⟨taken.map (·.1), fall.toList ++ taken.toList⟩

namespace Flow

/-- Record a visit: where it jumps and how deep the stack gets. -/
def mark (a : Flow) (pc depth : Nat) (v : Visit) : Flow :=
  { a with
    jumpTargets := match v.target with
      | some t => a.jumpTargets.setIfInBounds t true
      | none => a.jumpTargets
    loopHeads := match v.target with
      | some t => if t ≤ pc then a.loopHeads.setIfInBounds t true else a.loopHeads
      | none => a.loopHeads
    maxDepth := v.next.foldl (fun m c => max m c.2) (max a.maxDepth depth) }

/-- Walk every configuration on the list and all that follow. -/
def walk (f : Function) (work : List (Nat × Nat)) (a : Flow) : Except FlowError Flow :=
  match work with
  | [] => .ok a
  | (pc, depth) :: rest =>
    if h : pc < a.depths.size then
      match hd : a.depths[pc] with
      | some expected =>
        if expected = depth then walk f rest a
        else .error (.depthMismatch pc expected depth)
      | none =>
        match f.code[pc]? with
        | none => .error (.fallsOffEnd pc)
        | some i =>
          match visit f pc depth i with
          | .error e => .error e
          | .ok v =>
            walk f (v.next ++ rest)
              ({ a with depths := a.depths.set pc (some depth) }.mark pc depth v)
    else .error (.fallsOffEnd pc)
termination_by (a.depths.count none, work.length)
decreasing_by
  · exact Prod.Lex.right _ (by simp)
  · apply Prod.Lex.left
    have hmem : (none : Option Nat) ∈ a.depths := hd ▸ Array.getElem_mem h
    have hcount : (a.depths.set pc (some depth)).count none = a.depths.count none - 1 := by
      rw [Array.count_set, hd]
      rfl
    simp only [mark, hcount]
    exact Nat.sub_one_lt (Nat.ne_of_gt (Array.count_pos_iff.2 hmem))

/-- Walk every path of a function from its entry. -/
def analyze (f : Function) : Except FlowError Flow :=
  if f.code.size = 0 then .error (.fallsOffEnd 0)
  else walk f [(0, 0)] (unvisited f.code.size)

end Flow

end FastPath.Bytecode
