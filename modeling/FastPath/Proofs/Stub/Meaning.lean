import FastPath.Stub.Invoke

/-!
# What a stub computes

The stubs of the operators read their operands from the memory of the frame, apply a generic
operation to them, and put the result where the first operand was. `Stub.apply` is that
operation.
-/

namespace FastPath

open HeapM

namespace Stub

/-- The stub applies an operation to operands in memory. -/
def isOperator : Stub → Bool
  | newInit | newObject | newArray | initProp | initMethod | initElem => false
  | _ => true

/-- The operation, on the operands from the lowest slot up. -/
def apply : Stub → List Value → HeapM Value
  | bit op, [a, b] => look (·.bitOp op a b)
  | bitNot, [v] => look (·.bitNot v)
  | arith op, [a, b] => genericArith op a b
  | pos, [v] => look (·.pos v)
  | not, [v] => return .boolean (← look (·.not v))
  | truth, [v] => return .boolean (← look (·.toBoolean v))
  | typeOf, [v] => return .string v.typeOf
  | compare op, [a, b] => return .boolean (← genericCompare op a b)
  | getElem, [o, key] => getElement o key
  | setElem, [o, key, v] => do
    setElement o key v
    return v
  | _, _ => throw .operandBelowFrame

/-- The word that the stub returns with a result. -/
def word (s : Stub) (r : Value) : UInt64 := if s.returnsBool then r.payload else 0

/-- The memory of the frame after the stub. -/
def deposit (s : Stub) (slots : Array Cell) (sp : Nat) (r : Value) : Array Cell :=
  if s.defs = 0 then slots else slots.setIfInBounds (sp - s.uses) r.toCell

end Stub

/-- The slots below `sp` hold the values, the last of them on top. -/
def HoldsOperands (slots : Array Cell) (sp : Nat) (vs : List Value) : Prop :=
  vs.length ≤ sp ∧ ∀ i v, vs[i]? = some v →
    ∃ c, slots[sp - vs.length + i]? = some c ∧ c.decode = .ok v

namespace StubM

variable {α β : Type} {s s' : StubState}

theorem bind_run (x : StubM α) (k : α → StubM β) (s : StubState) : (x >>= k) s =
    match x s with
    | .ok a s' => k a s'
    | .error e s' => .error e s' := by
  change EStateM.bind x k s = _
  unfold EStateM.bind
  cases x s <;> rfl

theorem lift_run (x : HeapM α) (s : StubState) : (liftM x : StubM α) s =
    match x s.heap with
    | .ok a h => .ok a { s with heap := h }
    | .error e h => .error e { s with heap := h } := by
  obtain ⟨heap, slots⟩ := s
  rfl

end StubM

namespace HeapM

variable {α β : Type}

theorem bind_run (x : HeapM α) (k : α → HeapM β) (h : Heap) : (x >>= k) h =
    match x h with
    | .ok a h' => k a h'
    | .error e h' => .error e h' := by
  change EStateM.bind x k h = _
  unfold EStateM.bind
  cases x h <;> rfl

end HeapM

namespace StubCall

variable {c : StubCall} {heap : Heap} {slots : Array Cell} {d i : Nat} {v : Value}
  {vs : List Value}

/-- A stub reads the operand that is there. -/
theorem operand_ok (h : HoldsOperands slots c.sp vs) (hv : vs[i]? = some v)
    (hd : d + i = vs.length) : c.operand d ⟨heap, slots⟩ = .ok v ⟨heap, slots⟩ := by
  obtain ⟨hle, hop⟩ := h
  obtain ⟨cell, hc, hdecode⟩ := hop i v hv
  have hslot : c.sp - vs.length + i = c.sp - d := by omega
  have hget : (get : StubM StubState) ⟨heap, slots⟩ = .ok ⟨heap, slots⟩ ⟨heap, slots⟩ := rfl
  unfold operand
  rw [if_neg (by omega)]
  dsimp only
  rw [StubM.bind_run, hget]
  dsimp only
  rw [← hslot, hc]
  dsimp only
  rw [hdecode]
  rfl

/-- A stub writes its result over its operands. -/
theorem write_ok (h : HoldsOperands slots c.sp vs) (hd : d = vs.length) (hpos : 0 < d)
    (heap : Heap) (v : Value) : c.write d v ⟨heap, slots⟩ =
      .ok () ⟨heap, slots.setIfInBounds (c.sp - d) v.toCell⟩ := by
  subst hd
  obtain ⟨hle, hop⟩ := h
  obtain ⟨cell, hc, -⟩ := hop 0 vs[0] (List.getElem?_eq_getElem hpos)
  have hlt : c.sp - vs.length < slots.size := (Array.getElem?_eq_some_iff.1 hc).1
  unfold write
  rw [if_neg (Nat.not_lt.2 hle)]
  change (if c.sp - vs.length < slots.size then _ else _ : StubM Unit) ⟨heap, slots⟩ = _
  rw [if_pos hlt]
  rfl

/-- An operation on one operand, which is replaced. -/
theorem unary_eq {op : Value → HeapM Value} (h : HoldsOperands slots c.sp [v]) :
    c.unary op ⟨heap, slots⟩ = match op v heap with
      | .ok r h => .ok 0 ⟨h, slots.setIfInBounds (c.sp - 1) r.toCell⟩
      | .error e h => .error e ⟨h, slots⟩ := by
  unfold unary
  rw [StubM.bind_run, operand_ok (d := 1) (i := 0) h rfl rfl]
  dsimp only
  rw [StubM.bind_run, StubM.lift_run]
  cases op v heap with
  | error e heap' => rfl
  | ok r heap' =>
    dsimp only
    rw [StubM.bind_run, write_ok (d := 1) h rfl Nat.one_pos]
    rfl

/-- An operation on two operands, of which the lower one is replaced. -/
theorem binary_eq {op : Value → Value → HeapM Value} {a b : Value}
    (h : HoldsOperands slots c.sp [a, b]) :
    c.binary op ⟨heap, slots⟩ = match op a b heap with
      | .ok r h => .ok 0 ⟨h, slots.setIfInBounds (c.sp - 2) r.toCell⟩
      | .error e h => .error e ⟨h, slots⟩ := by
  unfold binary
  rw [StubM.bind_run, operand_ok (d := 2) (i := 0) h rfl rfl]
  dsimp only
  rw [StubM.bind_run, operand_ok (d := 1) (i := 1) h rfl rfl]
  dsimp only
  rw [StubM.bind_run, StubM.lift_run]
  cases op a b heap with
  | error e heap' => rfl
  | ok r heap' =>
    dsimp only
    rw [StubM.bind_run, write_ok (d := 2) h rfl Nat.two_pos]
    rfl

/-- A boolean outcome, written in place of the operands. -/
theorem answer_eq (h : HoldsOperands slots c.sp vs) (hd : d = vs.length) (hpos : 0 < d)
    (heap : Heap) (b : Bool) : c.answer d b ⟨heap, slots⟩ =
      .ok (Value.boolean b).payload
      ⟨heap, slots.setIfInBounds (c.sp - d) (Value.boolean b).toCell⟩ := by
  unfold answer
  rw [StubM.bind_run, write_ok h hd hpos]
  rfl

/-- A call of an operator is the operation on the values in memory. -/
theorem invoke_eq {stub : Stub} (hstub : stub.isOperator) (h : HoldsOperands slots c.sp vs)
    (hlen : vs.length = stub.uses) :
    c.invoke stub ⟨heap, slots⟩ = match stub.apply vs heap with
      | .ok r heap' => .ok (stub.word r) ⟨heap', stub.deposit slots c.sp r⟩
      | .error e heap' => .error e ⟨heap', slots⟩ := by
  match stub, vs with
  | .bit op, [a, b] => exact binary_eq h
  | .bitNot, [v] => exact unary_eq h
  | .arith op, [a, b] => exact binary_eq h
  | .pos, [v] => exact unary_eq h
  | .typeOf, [v] => exact unary_eq h
  | .getElem, [a, b] => exact binary_eq h
  | .not, [v] =>
    simp only [invoke, Stub.apply]
    rw [StubM.bind_run, operand_ok (d := 1) (i := 0) h rfl rfl]
    dsimp only
    rw [StubM.bind_run, StubM.lift_run, bind_run]
    cases look (·.not v) heap with
    | error e heap' => rfl
    | ok b heap' => exact answer_eq h rfl Nat.one_pos heap' b
  | .truth, [v] =>
    simp only [invoke, Stub.apply]
    rw [StubM.bind_run, operand_ok (d := 1) (i := 0) h rfl rfl]
    dsimp only
    rw [StubM.bind_run, StubM.lift_run, bind_run]
    cases look (·.toBoolean v) heap <;> rfl
  | .compare op, [a, b] =>
    simp only [invoke, Stub.apply]
    rw [StubM.bind_run, operand_ok (d := 2) (i := 0) h rfl rfl]
    dsimp only
    rw [StubM.bind_run, operand_ok (d := 1) (i := 1) h rfl rfl]
    dsimp only
    rw [StubM.bind_run, StubM.lift_run, bind_run]
    cases genericCompare op a b heap with
    | error e heap' => rfl
    | ok r heap' => exact answer_eq h rfl Nat.two_pos heap' r
  | .setElem, [o, key, v] =>
    simp only [invoke, Stub.apply]
    rw [StubM.bind_run, operand_ok (d := 3) (i := 0) h rfl rfl]
    dsimp only
    rw [StubM.bind_run, operand_ok (d := 2) (i := 1) h rfl rfl]
    dsimp only
    rw [StubM.bind_run, operand_ok (d := 1) (i := 2) h rfl rfl]
    dsimp only
    rw [StubM.bind_run, StubM.lift_run, bind_run]
    cases setElement o key v heap with
    | error e heap' => rfl
    | ok r heap' =>
      dsimp only
      rw [StubM.bind_run, write_ok (d := 3) h rfl (by decide)]
      rfl

end StubCall

end FastPath
