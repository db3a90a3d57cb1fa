import FastPath.Proofs.Meaning.Operators
import Mathlib.Logic.Relation

/-!
# Effects of instructions

What an instruction does to the values of a frame, without saying where they are kept. The operands
of an operator need not be in the form in which they were computed: code may keep a number as an
integer or as a double, and change the form whenever it moves the number. An instruction therefore
has one effect for each form of its operands; they are all the same up to the form of numbers.
-/

namespace FastPath

open Bytecode CompileM

namespace Bytecode.Function

/-- The slot of a variable. -/
def slot (f : Function) : Var → Slot
  | .arg i => i.toNat
  | .loc i => f.paramCount + i.toNat

/-- The value of a literal on a heap that has its string. -/
def literal? (f : Function) (h : Heap) : Literal → Option Value
  | .undefined => some .undefined
  | .null => some .null
  | .bool b => some (.boolean b)
  | .int32 i => some (.int32 i)
  | .double c => (f.numberConstant? c.toNat).map .double
  | .string c => (f.stringConstant? c.toNat).bind fun text => (h.findString? text).map .string

end Bytecode.Function

/-- The value that an increment or decrement yields, and the one it assigns. The prefix
forms subtract the negated amount; the postfix forms yield the converted old value. -/
def BumpForm.apply (form : BumpForm) (v : Value) : HeapM (Value × Value) := do
  if form.isPost then
    let old ← HeapM.look (·.pos v)
    return (old, ← genericAdd old (.int32 form.delta))
  else
    let new ← HeapM.look (·.sub v (.int32 (-form.delta)))
    return (new, new)

/-- A point in the run of a function: the next instruction, the stack pointer and the values. -/
structure Point where
  pc : Nat
  sp : Nat
  store : Store

/-- What an instruction leads to. -/
inductive Effect where
  | next (p : Point)
  | done (v : Value) (h : Heap)
  | failed (e : OpError) (h : Heap)

namespace Point

/-- The value at the top of the stack. -/
def top (p : Point) : Value := p.store.env (p.sp - 1)

/-- A value takes the place of `n` operands, and control goes on. -/
def push (p : Point) (n : Nat) (v : Value) (h : Heap) : Point :=
  ⟨p.pc + 1, p.sp - n + 1, p.store.put (p.sp - n) v h⟩

/-- Values that stand for the `n` operands at the top. -/
def Operands (p : Point) (n : Nat) (us : List Value) : Prop :=
  us.length = n ∧ ∀ i (u : Value), us[i]? = some u → u.same (p.store.env (p.sp - n + i))

/-- What a stub may make of the operands at the top. -/
def answer (p : Point) (stub : Stub) : Answer where
  ok r h := ∃ us, p.Operands stub.uses us ∧ stub.apply us p.store.heap = .ok r h
  error e h := ∃ us, p.Operands stub.uses us ∧ stub.apply us p.store.heap = .error e h

/-- The effects of the instruction at a point. -/
inductive Does (f : Function) (p : Point) : Effect → Prop
  | skip {i : Instr} : f.code[p.pc]? = some i → i = .nop ∨ i = .loopHead →
      Does f p (.next { p with pc := p.pc + 1 })
  | literal {l : Literal} {v : Value} : f.code[p.pc]? = some (.push l) →
      f.literal? p.store.heap l = some v → Does f p (.next (p.push 0 v p.store.heap))
  | get {x : Var} : f.code[p.pc]? = some (.get x) →
      Does f p (.next (p.push 0 (p.store.env (f.slot x)) p.store.heap))
  | set {x : Var} : f.code[p.pc]? = some (.set x) →
      Does f p (.next ⟨p.pc + 1, p.sp, p.store.put (f.slot x) p.top p.store.heap⟩)
  /-- The old value has been converted, and what is yielded and assigned may change its form. -/
  | bump {form : BumpForm} {x : Var} {v y z y' z' : Value} {h : Heap} :
      f.code[p.pc]? = some (.bump form x) → v.same (p.store.env (f.slot x)) →
      form.apply v p.store.heap = .ok (y, z) h → y'.same y → z'.same z →
      Does f p (.next ((⟨p.pc, p.sp, p.store.put (f.slot x) z' h⟩ : Point).push 0 y' h))
  | bumpFails {form : BumpForm} {x : Var} {v : Value} {e : OpError} {h : Heap} :
      f.code[p.pc]? = some (.bump form x) → v.same (p.store.env (f.slot x)) →
      form.apply v p.store.heap = .error e h → Does f p (.failed e h)
  | pop : f.code[p.pc]? = some .pop → Does f p (.next ⟨p.pc + 1, p.sp - 1, p.store⟩)
  | dup : f.code[p.pc]? = some .dup → Does f p (.next (p.push 0 p.top p.store.heap))
  | swap : f.code[p.pc]? = some .swap → Does f p (.next ⟨p.pc + 1, p.sp,
      (p.store.put (p.sp - 2) p.top p.store.heap).put (p.sp - 1) (p.store.env (p.sp - 2))
      p.store.heap⟩)
  | operator {i : Instr} {stub : Stub} {r : Value} {h : Heap} :
      f.code[p.pc]? = some i → genericStub? i = some stub → (p.answer stub).ok r h →
      Does f p (.next (p.push stub.uses r h))
  | operatorFails {i : Instr} {stub : Stub} {e : OpError} {h : Heap} :
      f.code[p.pc]? = some i → genericStub? i = some stub → (p.answer stub).error e h →
      Does f p (.failed e h)
  | goto {n : Int32} {target : Nat} : f.code[p.pc]? = some (.goto n) →
      f.jumpTarget? p.pc = some target → Does f p (.next { p with pc := target })
  | taken {kind : BranchKind} {n : Int32} {target : Nat} : f.code[p.pc]? = some (.branch kind n) →
      p.store.heap.toBoolean p.top = .ok kind.jumpsOn → f.jumpTarget? p.pc = some target →
      Does f p (.next ⟨target, if kind.keepsValue then p.sp else p.sp - 1, p.store⟩)
  | notTaken {kind : BranchKind} {n : Int32} : f.code[p.pc]? = some (.branch kind n) →
      p.store.heap.toBoolean p.top = .ok (!kind.jumpsOn) →
      Does f p (.next ⟨p.pc + 1, p.sp - 1, p.store⟩)
  | branchFails {kind : BranchKind} {n : Int32} {e : OpError} :
      f.code[p.pc]? = some (.branch kind n) → p.store.heap.toBoolean p.top = .error e →
      Does f p (.failed e p.store.heap)
  | ret {v : Value} : f.code[p.pc]? = some .ret → v.same p.top → Does f p (.done v p.store.heap)
  | returnUndefined : f.code[p.pc]? = some .returnUndefined →
      Does f p (.done .undefined p.store.heap)

section

variable {f : Function} {p : Point} {i : Instr} {e : Effect}

/-- A variable is pushed. -/
theorem does_get {x : Var} (hi : f.code[p.pc]? = some (.get x)) (h : p.Does f e) :
    e = .next (p.push 0 (p.store.env (f.slot x)) p.store.heap) := by
  cases h <;> simp_all [genericStub?]

/-- A literal is pushed. -/
theorem does_literal {l : Literal} (hi : f.code[p.pc]? = some (.push l)) (h : p.Does f e) :
    ∃ v, f.literal? p.store.heap l = some v ∧ e = .next (p.push 0 v p.store.heap) := by
  cases h <;> simp_all [genericStub?]

/-- An operator gives a value or fails. -/
theorem does_operator {stub : Stub} (hi : f.code[p.pc]? = some i)
    (hstub : genericStub? i = some stub) (h : p.Does f e) :
    (∃ r h, (p.answer stub).ok r h ∧ e = .next (p.push stub.uses r h)) ∨
      ∃ x h, (p.answer stub).error x h ∧ e = .failed x h := by
  cases h with
  | operator hi' hstub' ha =>
    cases hi.symm.trans hi'
    cases hstub.symm.trans hstub'
    exact .inl ⟨_, _, ha, rfl⟩
  | operatorFails hi' hstub' ha =>
    cases hi.symm.trans hi'
    cases hstub.symm.trans hstub'
    exact .inr ⟨_, _, ha, rfl⟩
  | _ => grind [genericStub?]

/-- A return ends the run. -/
theorem does_ret (hi : f.code[p.pc]? = some .ret) (h : p.Does f e) :
    ∃ v, v.same p.top ∧ e = .done v p.store.heap := by
  cases h <;> simp_all [genericStub?]

end

/-- The instruction at a point leads to another point. -/
def Moves (f : Function) (p q : Point) : Prop := p.Does f (.next q)

/-- The instruction at a point ends the run. -/
inductive Halts (f : Function) (p : Point) : Outcome → Heap → Prop
  | done {v : Value} {h : Heap} : p.Does f (.done v h) → Halts f p (.ret v) h
  | failed {e : OpError} {h : Heap} {o : Outcome} : p.Does f (.failed e h) → o.FailsWith e →
      Halts f p o h

end Point

end FastPath
