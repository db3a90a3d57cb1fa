import FastPath.Machine.Run
import FastPath.Proofs.Machine.Block

/-!
# Steps of a run

A run goes through stages: it is running at some offset, or has stopped, or has faulted.
`Steps` relates two stages that are a number of steps apart, and `Stage.resume` is what a
run comes to that continues from a stage. Since steps are deterministic, whatever is known
about the stages between here and there is known about every run.

What a branch does depends on its guard alone, as long as no cache is asked: it trips and
control goes to the target, or it passes and control goes on.
-/

namespace FastPath

open MachineM

/-- A run is its first step and the run from where that leads. -/
theorem Machine.runFrom_succ (p : Position) (limit n : Nat) (offset : Offset) (m : Machine) :
    runFrom p limit (n + 1) offset m =
      match step { p with offset } m with
      | .ok .next m => runFrom p limit n (offset + 1) m
      | .ok (.goto target) m => runFrom p limit n target m
      | .ok (.stop outcome) m => .ok outcome m
      | .error f m => .error f m := by
  change EStateM.bind (step { p with offset }) _ m = _
  unfold EStateM.bind
  cases step { p with offset } m with
  | error f m => rfl
  | ok c m => cases c <;> rfl

theorem Machine.size_initialSlots (code : Code) (args : List Value) :
    (initialSlots code args).size = code.frameSize := by
  simp only [initialSlots, Array.size_append, List.size_toArray, List.length_map,
    List.length_take, Array.size_replicate]
  lia

/-- Where a run stands. -/
inductive Stage where
  | running (offset : Offset) (m : Machine)
  | stopped (outcome : Outcome) (m : Machine)
  | faulted (f : Fault) (m : Machine)

namespace Stage

/-- Where a step leads. -/
def after (offset : Offset) : EStateM.Result Fault Machine Control → Stage
  | .ok .next m => running (offset + 1) m
  | .ok (.goto target) m => running target m
  | .ok (.stop outcome) m => stopped outcome m
  | .error f m => faulted f m

/-- What a run comes to that has `n` more steps. -/
def resume (p : Position) (limit n : Nat) : Stage → EStateM.Result Fault Machine Outcome
  | running offset m => Machine.runFrom p limit n offset m
  | stopped outcome m => .ok outcome m
  | faulted f m => .error f m

theorem resume_running (p : Position) (limit n : Nat) (offset : Offset) (m : Machine) :
    (running offset m).resume p limit (n + 1) =
      (after offset (step { p with offset } m)).resume p limit n := by
  change Machine.runFrom p limit (n + 1) offset m = _
  rw [Machine.runFrom_succ]
  cases step { p with offset } m with
  | error f m => rfl
  | ok c m => cases c <;> rfl

end Stage

/-- The second stage is `n` steps after the first. -/
inductive Steps (p : Position) : Nat → Stage → Stage → Prop where
  | refl (s : Stage) : Steps p 0 s s
  | step {n : Nat} {offset : Offset} {m : Machine} {s : Stage} :
      Steps p n (.after offset (step { p with offset } m)) s →
        Steps p (n + 1) (.running offset m) s

namespace Steps

variable {p : Position} {k n limit : Nat} {s t u : Stage}

theorem trans (h : Steps p k s t) (h' : Steps p n t u) : Steps p (k + n) s u := by
  induction h with
  | refl => simpa only [Nat.zero_add] using h'
  | step _ ih =>
    rw [Nat.add_right_comm]
    exact .step (ih h')

/-- A single step. -/
theorem single {offset : Offset} {m : Machine} {r : EStateM.Result Fault Machine Control}
    (h : MachineM.step { p with offset } m = r) :
    Steps p 1 (.running offset m) (.after offset r) := by
  subst h
  exact .step (.refl _)

/-- A run that is given enough steps continues from where the steps lead. -/
theorem resume (h : Steps p k s t) (n : Nat) :
    s.resume p limit (k + n) = t.resume p limit n := by
  induction h with
  | refl => rw [Nat.zero_add]
  | @step k offset m s _ ih => rw [Nat.add_right_comm, Stage.resume_running, ih]

end Steps

/-! ### Guards -/

namespace Guard

/-- The guard trips. -/
def Trips (g : Guard) (m : Machine) : Prop :=
  ∀ p : Position, trips g p m = .ok true m ∧
    ∀ target, tripped g target p m = .ok target m

/-- The guard passes, and takes one state to the other. -/
def Passes (g : Guard) (m m' : Machine) : Prop :=
  ∀ p : Position, trips g p m = .ok false m'

/-- The guard trips or passes as a test says, and changes nothing. -/
def Tests (g : Guard) (m : Machine) (b : Bool) : Prop := if b then g.Trips m else g.Passes m m

/-- The guard has a result to write and passes, or none and trips. -/
def Converts (g : Guard) (m : Machine) (dst : Reg) (result : Option Int32) : Prop :=
  match result with
  | some i => g.Passes m (m.setReg dst i.toUInt32.toUInt64)
  | none => g.Trips m

variable {g : Guard} {m : Machine}

theorem Tests.trips {b : Bool} (h : g.Tests m b) (hb : b = true) : g.Trips m := by
  subst hb
  exact h

theorem Tests.passes {b : Bool} (h : g.Tests m b) (hb : b = false) : g.Passes m m := by
  subst hb
  exact h

section

open MachineM

variable {m : Machine} {r : Reg} {x x' : FReg} {o o' : Operand} {w w' : UInt64} {d d' : Double}

theorem trips_always (m : Machine) : Guard.always.Trips m := fun _ => ⟨rfl, fun _ => rfl⟩

variable {g : Guard} {i : Option Int32}

theorem tests_of_run {b : Bool} (hrun : ∀ p, trips g p m = .ok b m)
    (htrip : ∀ target p, tripped g target p m = .ok target m) : g.Tests m b := by
  cases b with
  | false => exact hrun
  | true => exact fun p => ⟨hrun p, fun t => htrip t p⟩

theorem tests_compare {cond : Cond} (h : m.operand? o = some w) (h' : m.operand? o' = some w') :
    (Guard.compare cond o o').Tests m (cond.eval w w') := by
  refine tests_of_run (fun p => ?_) fun _ _ => rfl
  exact (bind_ok (operand_ok h)).trans ((bind_ok (operand_ok h')).trans rfl)

theorem tests_compareDouble (cond : DoubleCond) (h : m.freg x = some d)
    (h' : m.freg x' = some d') :
    (Guard.compareDouble cond x x').Tests m (cond.eval d d') := by
  refine tests_of_run (fun p => ?_) fun _ _ => rfl
  exact (bind_ok (getFReg_ok h)).trans ((bind_ok (getFReg_ok h')).trans rfl)

theorem setResult_ok {p : Position} (hr : r.index < Reg.count) :
    setResult r i p m = match i with
      | some i => .ok false (m.setReg r i.toUInt32.toUInt64)
      | none => .ok true m := by
  cases i with
  | none => rfl
  | some i => exact (bind_ok (setReg_ok _ hr)).trans rfl

theorem converts_of_run (hr : r.index < Reg.count) (hrun : ∀ p, trips g p m = setResult r i p m)
    (htrip : ∀ target p, tripped g target p m = .ok target m) : g.Converts m r i := by
  cases i with
  | none => exact fun p => ⟨(hrun p).trans (setResult_ok hr), fun t => htrip t p⟩
  | some i => exact fun p => (hrun p).trans (setResult_ok hr)

theorem converts_truncate (h : m.freg x = some d) (hr : r.index < Reg.count) :
    (Guard.truncate x r).Converts m r d.truncateInt32? := by
  refine converts_of_run hr (fun p => ?_) fun _ _ => rfl
  exact (bind_ok (getFReg_ok h)).trans rfl

theorem converts_convert (h : m.freg x = some d) (hr : r.index < Reg.count) :
    (Guard.convert x r).Converts m r d.exactInt32? := by
  refine converts_of_run hr (fun p => ?_) fun _ _ => rfl
  exact (bind_ok (getFReg_ok h)).trans rfl

end

end Guard

/-- A stub works on the heap and the slots of the machine. -/
theorem MachineM.runStub_run {p : Position} {m : Machine} (stub : Stub) (sp : Nat) (arg : Int64) :
    runStub stub sp arg p m =
      match StubCall.invoke ⟨p.function, sp, arg⟩ stub ⟨m.heap, m.slots⟩ with
      | .ok w s => .ok (.ok w) { m with heap := s.heap, slots := s.slots }
      | .error e s => .ok (.error e) { m with heap := s.heap, slots := s.slots } := by
  have hmodify {α : Type} (g : Machine → α × Machine) :
      (modifyGet g : MachineM α) p m = .ok (g m).1 (g m).2 := rfl
  unfold runStub
  rw [bind_ok (show (read : MachineM Position) p m = .ok p m from rfl), hmodify]
  dsimp only
  cases StubCall.invoke ⟨p.function, sp, arg⟩ stub ⟨m.heap, m.slots⟩ <;> rfl

end FastPath
