import FastPath.Machine.Step

/-!
# Runs

A run executes steps until the code returns, hands back control, or faults. The number of
steps is limited, and the runner recurses on how many are left.
-/

namespace FastPath

namespace Machine

/-- Run at most `n` more steps from a position; `limit` is the number allowed in all. -/
def runFrom (p : Position) (limit : Nat) : (n : Nat) → Offset → EStateM Fault Machine Outcome
  | 0, _ => throw (.stepLimit limit)
  | n + 1, offset => do
    match ← MachineM.step { p with offset } with
    | .next => runFrom p limit n (offset + 1)
    | .goto target => runFrom p limit n target
    | .stop outcome => return outcome

/-- Run the code from its entry. -/
def runCode (code : Code) (function : Bytecode.Function) (counting : Bool) (limit : Nat) :
    EStateM Fault Machine Outcome :=
  match code.offset? 0 with
  | none => throw .noEntry
  | some entry => runFrom ⟨code, function, counting, entry⟩ limit limit entry

end Machine

/-- What a run leaves behind. -/
structure RunResult where
  outcome : Except Fault Outcome
  heap : Heap
  live : LiveCode
  stats : Stats

/-- Run live code as a function on a heap. -/
def LiveCode.run (live : LiveCode) (function : Bytecode.Function) (heap : Heap)
    (args : List Value) (limit : Nat) (counting : Bool) : RunResult :=
  match Machine.runCode live.code function counting limit (.start live heap args) with
  | .ok outcome m => ⟨.ok outcome, m.heap, { live with states := m.caches }, m.stats⟩
  | .error f m => ⟨.error f, m.heap, { live with states := m.caches }, m.stats⟩

end FastPath
