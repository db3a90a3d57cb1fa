import FastPath.Proofs.Meaning.Straight

/-!
# Functions that apply one operator

A function that pushes arguments and literals, applies an operator to them and returns what it
gives. Its control flow is that of a straight line, so a run of its code ends as the generic
operator does on the values that have been pushed.
-/

namespace FastPath

open Bytecode CompileM

open Relation (TransGen ReflTransGen)

namespace Bytecode

/-- Where an operand comes from. -/
inductive Input where
  | arg (index : UInt16)
  | literal (l : Literal)
deriving DecidableEq, Repr, Inhabited

namespace Input

/-- The instruction that pushes the operand. -/
def instr : Input → Instr
  | arg i => .get (.arg i)
  | literal l => .push l

/-- The value of the operand; an argument that is not given is `undefined`. -/
def value? (f : Function) (h : Heap) (args : List Value) : Input → Option Value
  | arg i => some (args[i.toNat]?.getD .undefined)
  | literal l => f.literal? h l

theorem stackEffect_instr (x : Input) : x.instr.stackEffect = ⟨0, 1⟩ := by cases x <;> rfl

theorem takenEffect?_instr (x : Input) : x.instr.takenEffect? = none := by cases x <;> rfl

theorem isTerminator_instr (x : Input) : x.instr.isTerminator = false := by cases x <;> rfl

end Input

/-- The function pushes the inputs, applies the operator and returns what it gives. -/
structure Function.Applies (f : Function) (i : Instr) (xs : List Input) (stub : Stub) : Prop where
  code : f.code = (xs.map Input.instr ++ [i, .ret]).toArray
  generic : genericStub? i = some stub
  isBitwise : stub.isBitwise
  uses : stub.uses = xs.length
  effect : i.stackEffect = ⟨xs.length, 1⟩

namespace Function.Applies

variable {f : Function} {i j : Instr} {xs : List Input} {stub : Stub} {pc d : Nat}

variable (h : f.Applies i xs stub)
include h

theorem size : f.code.size = xs.length + 2 := by simp [h.code]

/-- There is an input, the operator or the return. -/
theorem instr_cases (hj : f.code[pc]? = some j) :
    (∃ x, xs[pc]? = some x ∧ j = x.instr) ∨ (pc = xs.length ∧ j = i) ∨
      (pc = xs.length + 1 ∧ j = .ret) := by
  rw [h.code, List.getElem?_toArray, List.getElem?_append, List.length_map] at hj
  split at hj
  · rw [List.getElem?_map] at hj
    obtain ⟨x, hx, rfl⟩ := Option.map_eq_some_iff.1 hj
    exact .inl ⟨x, hx, rfl⟩
  · next hge =>
    rcases hn : pc - xs.length with _ | _ | n
    · rw [hn] at hj
      cases hj
      exact .inr (.inl ⟨by omega, rfl⟩)
    · rw [hn] at hj
      cases hj
      exact .inr (.inr ⟨by omega, rfl⟩)
    · rw [hn] at hj
      cases hj

theorem instr_input {x : Input} (hx : xs[pc]? = some x) : f.code[pc]? = some x.instr := by
  have hlt := (List.getElem?_eq_some_iff.1 hx).1
  rw [h.code, List.getElem?_toArray, List.getElem?_append_left
    (by simpa using hlt), List.getElem?_map,
    hx]
  rfl

theorem instr_operator : f.code[xs.length]? = some i := by
  rw [h.code, List.getElem?_toArray, List.getElem?_append_right (by simp)]
  simp

theorem instr_ret (hpc : pc = xs.length + 1) : f.code[pc]? = some .ret := by
  rw [hpc, h.code, List.getElem?_toArray, List.getElem?_append_right (by simp)]
  simp

theorem takenEffect?_operator : i.takenEffect? = none := by
  have := h.generic
  cases i <;> first | rfl | cases this

theorem isTerminator_operator : i.isTerminator = false := by
  have := h.generic
  cases i <;> first | rfl | cases this

/-! ### Control flow -/

theorem takenEffect? (hj : f.code[pc]? = some j) : j.takenEffect? = none := by
  rcases h.instr_cases hj with ⟨x, -, rfl⟩ | ⟨-, rfl⟩ | ⟨-, rfl⟩
  · exact x.takenEffect?_instr
  · exact h.takenEffect?_operator
  · rfl

theorem jumpTarget? (pc : Nat) : f.jumpTarget? pc = none := by
  cases hj : f.code[pc]? with
  | none => simp [Function.jumpTarget?, hj]
  | some j =>
    by_contra hne
    obtain ⟨t, ht⟩ := Option.ne_none_iff_exists'.1 hne
    have hsome := Flow.takenEffect?_of_jumpTarget? hj ht
    rw [h.takenEffect? hj] at hsome
    cases hsome

/-- How many values are on the stack. -/
theorem depth_of_reaches (hr : Reaches f pc d) :
    (pc ≤ xs.length ∧ d = pc) ∨ (pc = xs.length + 1 ∧ d = 1) := by
  induction hr with
  | entry => exact .inl ⟨Nat.zero_le _, rfl⟩
  | taken hr hj he ht => rw [h.takenEffect? hj] at he; cases he
  | @fall pc d j hr hj hterm huses ih =>
    rcases h.instr_cases hj with ⟨x, hx, rfl⟩ | ⟨rfl, rfl⟩ | ⟨-, rfl⟩
    · have hlt := (List.getElem?_eq_some_iff.1 hx).1
      rw [x.stackEffect_instr]
      exact .inl ⟨hlt, by simp; omega⟩
    · rw [h.effect]
      exact .inr ⟨rfl, by simp; omega⟩
    · cases hterm

/-- Control never goes wrong. -/
theorem regular : Regular f where
  nonempty := by rw [h.size]; omega
  faultless pc d hr hfault := by
    have hd := h.depth_of_reaches hr
    cases hfault with
    | badTarget hj hjump =>
      rw [h.takenEffect? hj] at hjump
      cases hjump
    | takenUnderflow hj he =>
      rw [h.takenEffect? hj] at he
      cases he
    | fallUnderflow hj hterm huses =>
      rcases h.instr_cases hj with ⟨x, -, rfl⟩ | ⟨rfl, rfl⟩ | ⟨-, rfl⟩
      · rw [x.stackEffect_instr] at huses
        exact absurd huses (Nat.not_lt_zero d)
      · rw [h.effect] at huses
        dsimp only at huses
        omega
      · cases hterm
    | fallsOff hj hterm hend =>
      rw [h.size] at hend
      rcases h.instr_cases hj with ⟨x, hx, rfl⟩ | ⟨rfl, rfl⟩ | ⟨-, rfl⟩
      · have hlt := (List.getElem?_eq_some_iff.1 hx).1
        omega
      · omega
      · cases hterm
  agree pc d d' hr hr' := by
    have hd := h.depth_of_reaches hr
    have hd' := h.depth_of_reaches hr'
    omega

end Function.Applies

/-- Control that never goes wrong can be analyzed. -/
theorem Flow.exists_describes {f : Function} (hf : Regular f) :
    ∃ a, Flow.analyze f = .ok a ∧ a.Describes f := by
  obtain ⟨a, ha⟩ := Flow.walk_succeeds hf (Flow.unvisited_traced f)
  have hne : f.code.size ≠ 0 := Nat.ne_of_gt hf.nonempty
  have hflow : Flow.analyze f = .ok a := by
    simp only [Flow.analyze, hne, if_false]
    exact ha
  exact ⟨a, hflow, (Flow.analyze_describes hflow).2⟩

end Bytecode

/-! ### Points of a run -/

section

variable {f : Function} {i : Instr} {xs : List Input} {stub : Stub}
  {vs us : List Value} {h : Heap} {args : List Value} {p q : Point}

/-- The values that the inputs have. -/
def Bytecode.Function.Inputs (f : Function) (h : Heap) (args : List Value)
    (xs : List Input) (vs : List Value) : Prop :=
  List.Forall₂ (fun x v => x.value? f h args = some v) xs vs

theorem Bytecode.Function.Inputs.value {j : Nat} {x : Input} (hvs : f.Inputs h args xs vs)
    (hx : xs[j]? = some x) : ∃ v, vs[j]? = some v ∧ x.value? f h args = some v := by
  obtain ⟨hj, rfl⟩ := List.getElem?_eq_some_iff.1 hx
  obtain ⟨hlen, hvalue⟩ := List.forall₂_iff_get.1 hvs
  exact ⟨_, List.getElem?_eq_getElem (hlen ▸ hj), hvalue j hj (hlen ▸ hj)⟩

/-- The inputs before the next instruction have been pushed. -/
structure Point.Pushing (p : Point) (f : Function) (h : Heap)
    (args vs : List Value) : Prop where
  le : p.pc ≤ vs.length
  sp : p.sp = f.paramCount + f.localCount + p.pc
  heap : p.store.heap = h
  arg : ∀ s < f.paramCount, p.store.env s = args[s]?.getD .undefined
  pushed : ∀ j < p.pc, vs[j]? = some (p.store.env (f.paramCount + f.localCount + j))

/-- The operator has been applied, and what it gave is to be returned. -/
structure Point.Applied (p : Point) (f : Function) (stub : Stub) (h : Heap)
    (vs : List Value) :
    Prop where
  pc : p.pc = vs.length + 1
  sp : p.sp = f.paramCount + f.localCount + 1
  result : stub.apply vs h = .ok p.top p.store.heap

theorem Point.top_push (p : Point) (n : Nat) (v : Value) (h : Heap) : (p.push n v h).top = v :=
  assign_self ..

theorem Bytecode.Function.entry_pushing (f : Function) (h : Heap) (args vs : List Value) :
    (f.entry args h).Pushing f h args vs where
  le := Nat.zero_le _
  sp := rfl
  heap := rfl
  arg _ hs := if_pos hs
  pushed j hj := absurd hj (Nat.not_lt_zero j)

namespace Point.Pushing

/-- An input is pushed. -/
theorem push (hp : p.Pushing f h args vs) {v : Value} (hv : vs[p.pc]? = some v) :
    (p.push 0 v p.store.heap).Pushing f h args vs where
  le := (List.getElem?_eq_some_iff.1 hv).1
  sp := congrArg (· + 1) hp.sp
  heap := hp.heap
  arg s hs := (assign_ne (by have := hp.sp; lia)).trans (hp.arg s hs)
  pushed j hj := by
    change vs[j]? = some (assign p.store.env p.sp v _)
    rw [hp.sp]
    rcases Nat.lt_succ_iff_lt_or_eq.1 hj with hj | rfl
    · rw [assign_ne (by lia)]
      exact hp.pushed j hj
    · rw [assign_self, hv]

/-- The operands of the operator are the inputs. -/
theorem operands (hp : p.Pushing f h args vs) (hpc : p.pc = vs.length)
    (hus : p.Operands vs.length us) : List.Forall₂ Same us vs := by
  have hsp : p.sp - vs.length = f.paramCount + f.localCount := by
    have := hp.sp
    omega
  refine List.forall₂_iff_get.2 ⟨hus.1, fun j hj hj' => ?_⟩
  have hv := hp.pushed j (hpc ▸ hj')
  have hsame := hus.2 j _ (List.getElem?_eq_getElem hj)
  rw [List.getElem?_eq_getElem hj', Option.some.injEq] at hv
  rw [hsp, ← hv] at hsame
  exact hsame

end Point.Pushing

/-- The points of a run. -/
def Bytecode.Function.Visits (f : Function) (stub : Stub) (h : Heap) (args vs : List Value)
    (p : Point) : Prop := p.Pushing f h args vs ∨ p.Applied f stub h vs

namespace Bytecode.Function.Applies

/-- The operator ends in the same way on values that are the same. -/
theorem apply_same (hf : f.Applies i xs stub) (hvs : f.Inputs h args xs vs)
    (hus : List.Forall₂ Same us vs) : stub.apply us h = stub.apply vs h :=
  Stub.apply_same hf.isBitwise (hus.length_eq.trans (hvs.length_eq.symm.trans hf.uses.symm)) hus h

/-- Every instruction leads to another point of the run. -/
theorem visits_of_moves (hf : f.Applies i xs stub) (hvs : f.Inputs h args xs vs)
    (hargs : ∀ n : UInt16, .arg n ∈ xs → n.toNat < f.paramCount)
    (hp : f.Visits stub h args vs p) (hm : p.Moves f q) : f.Visits stub h args vs q := by
  have hlen : xs.length = vs.length := hvs.length_eq
  rcases hp with hp | hp
  · rcases Nat.lt_or_eq_of_le hp.le with hlt | hpc
    · obtain ⟨x, hx⟩ : ∃ x, xs[p.pc]? = some x := ⟨_, List.getElem?_eq_getElem (hlen ▸ hlt)⟩
      obtain ⟨v, hv, hval⟩ := hvs.value hx
      have hi := hf.instr_input hx
      refine .inl ?_
      cases x with
      | arg n =>
        cases Point.does_get hi hm
        cases hval
        rw [← hp.arg n.toNat (hargs n (List.mem_of_getElem? hx))] at hv
        exact hp.push hv
      | literal l =>
        obtain ⟨w, hw, he⟩ := Point.does_literal hi hm
        cases he
        rw [hp.heap] at hw
        cases hw.symm.trans hval
        exact hp.push hv
    · have hi := hf.instr_operator
      rw [hlen, ← hpc] at hi
      rcases Point.does_operator hi hf.generic hm with ⟨r, h', ⟨us, hus, hrun⟩, he⟩ | ⟨_, _, -, he⟩
      · cases he
        rw [hf.uses, hlen] at hus
        refine .inr ⟨congrArg (· + 1) hpc, ?_, ?_⟩
        · change p.sp - stub.uses + 1 = _
          rw [hp.sp, hf.uses, hlen, hpc, Nat.add_sub_cancel]
        · rw [Point.top_push, ← hf.apply_same hvs (hp.operands hpc hus), ← hp.heap]
          exact hrun
      · cases he
  · obtain ⟨v, -, he⟩ := Point.does_ret (hf.instr_ret (hp.pc.trans (by rw [hlen]))) hm
    cases he

/-- An input is never the end of a run. -/
theorem next_of_does {e : Effect} (hf : f.Applies i xs stub) (hpc : p.pc < xs.length)
    (he : p.Does f e) : ∃ q, e = .next q := by
  have hx := hf.instr_input (List.getElem?_eq_getElem hpc)
  cases hinput : xs[p.pc] with
  | arg n =>
    rw [hinput] at hx
    exact ⟨_, Point.does_get hx he⟩
  | literal l =>
    rw [hinput] at hx
    obtain ⟨v, -, he⟩ := Point.does_literal hx he
    exact ⟨_, he⟩

/-- The run ends as the operator does. -/
theorem halts {o : Outcome} {h' : Heap} (hf : f.Applies i xs stub) (hvs : f.Inputs h args xs vs)
    (hp : f.Visits stub h args vs p) (ho : p.Halts f o h') :
    (∃ r v, stub.apply vs h = .ok r h' ∧ o = .ret v ∧ v.same r) ∨
      ∃ e, stub.apply vs h = .error e h' ∧ o.FailsWith e := by
  have hlen : xs.length = vs.length := hvs.length_eq
  rcases hp with hp | hp
  · -- Only the operator may fail, and nothing else ends the run here.
    have hfails : ∀ {e : Effect}, p.Does f e → (∃ q, e = .next q) ∨
        ∃ x h', stub.apply vs h = .error x h' ∧ e = .failed x h' := by
      intro e he
      rcases Nat.lt_or_eq_of_le hp.le with hlt | hpc
      · exact .inl (hf.next_of_does (hlen ▸ hlt) he)
      · have hi := hf.instr_operator
        rw [hlen, ← hpc] at hi
        rcases Point.does_operator hi hf.generic he with ⟨r, _, -, he⟩ |
          ⟨x, h', ⟨us, hus, hrun⟩, he⟩
        · exact .inl ⟨_, he⟩
        · rw [hf.uses, hlen] at hus
          rw [hp.heap, hf.apply_same hvs (hp.operands hpc hus)] at hrun
          exact .inr ⟨x, h', hrun, he⟩
    cases ho with
    | done hd => rcases hfails hd with ⟨q, hq⟩ | ⟨x, h', -, hx⟩ <;> contradiction
    | failed hd ho =>
      rcases hfails hd with ⟨q, hq⟩ | ⟨x, h', hrun, hx⟩
      · cases hq
      · cases hx
        exact .inr ⟨_, hrun, ho⟩
  · have hi := hf.instr_ret (hp.pc.trans (by rw [hlen]))
    cases ho with
    | done hd =>
      obtain ⟨v, hv, he⟩ := Point.does_ret hi hd
      cases he
      exact .inl ⟨_, _, hp.result, rfl, hv⟩
    | failed hd =>
      obtain ⟨v, -, he⟩ := Point.does_ret hi hd
      cases he

end Bytecode.Function.Applies

end

/-! ### Runs -/

/-- The code that is emitted for the operator does what the stub does, and adds at most `n`
instructions and `m` passes over the slots. -/
structure CompileM.Realizes (i : Instr) (stub : Stub) (n m : Nat) : Prop where
  adds : ∀ c, Adds c n m (emitInline i)
  performs : ∀ (E : Placement) (c : Context) (k : Cursor) (p : Point), c.Stands i k.frame p →
    stub.uses ≤ k.frame.sp → c.Trusts E (k.frame.answer p.store stub) →
    Produces E c (emitInline i) k (.start (k.frame.Carries E.room p.store))
      fun r k' S' => S'.Performs E c.function p r.2 k.frame k'

theorem CompileM.bit_realizes (op : BitOp) : Realizes (.bit op) (.bit op) 38 2 where
  adds _ := single_adds bitOp_adds
  performs _ _ _ _ := bit_performs

theorem CompileM.bitNot_realizes : Realizes .bitNot .bitNot 38 2 where
  adds _ := single_adds bitNot_adds
  performs _ _ _ _ := bitNot_performs

/-- Inline code is emitted unless only stubs are to be called. -/
theorem CompileM.emit_produces {E : Placement} {c : Context} {i : Instr}
    {k : Cursor} {S : Scene}
    {Q : Emitted × Nat → Cursor → Scene → Prop} (hc : c.config.genericOnly = false)
    (h : Produces E c (emitInline i) k S Q) : Produces E c (emit i) k S Q := by
  refine produces_read ?_
  rw [hc]
  exact h

namespace Bytecode.Function.Applies

variable {c : Context} {i : Instr} {xs : List Input} {stub : Stub} {n m : Nat}
  {vs args : List Value}

/-- The oracle is right about what the operator gives. -/
def Foretold (o : Oracle) (stub : Stub) (h : Heap) (vs : List Value) : Prop :=
  ∀ r h', stub.apply vs h = .ok r h' → (o.pushed vs.length).mightBe r.tag

/-- The function has no jumps, and its emitters are bounded. -/
theorem straight (hf : c.function.Applies i xs stub) (hr : Realizes i stub n m)
    (hc : c.config.genericOnly = false) (hflow : c.flow.Describes c.function) :
    c.Straight (max n 7) m where
  jumpTarget? := hf.jumpTarget?
  isJumpTarget pc := by
    by_contra hne
    obtain ⟨pc', d, -, ht⟩ := (hflow.jumpTarget pc).1 (Bool.eq_true_of_not_eq_false hne)
    rw [hf.jumpTarget?] at ht
    cases ht
  last pc j hj ht := by
    rcases hf.instr_cases hj with ⟨x, -, rfl⟩ | ⟨-, rfl⟩ | ⟨rfl, -⟩
    · rw [x.isTerminator_instr] at ht
      cases ht
    · rw [hf.isTerminator_operator] at ht
      cases ht
    · rw [hf.size]
  adds pc j hj := by
    refine emit_adds hc ?_
    rcases hf.instr_cases hj with ⟨x, -, rfl⟩ | ⟨-, rfl⟩ | ⟨-, rfl⟩
    · cases x with
      | arg k => exact get_adds.mono (by omega) (Nat.zero_le m)
      | literal l => exact literal_adds.mono (by omega) (Nat.zero_le m)
    · exact (hr.adds _).mono (Nat.le_max_left _ _) (Nat.le_refl m)
    · exact (single_adds ret_adds).mono (Nat.le_max_right _ _) (Nat.zero_le m)

/-- The code of every instruction has its effects. -/
theorem follows (hf : c.function.Applies i xs stub) (hr : Realizes i stub n m)
    (hc : c.config.genericOnly = false) (hvs : c.function.Inputs c.heap args xs vs)
    (hargs : ∀ n : UInt16, .arg n ∈ xs → n.toNat < c.function.paramCount)
    (htold : Foretold c.oracle stub c.heap vs) :
    c.Follows (c.function.Visits stub c.heap args vs) where
  grew p hp := by
    rcases hp with hp | hp
    · rw [hp.heap]
      exact .refl _
    · rw [Stub.heap_of_apply hf.isBitwise (hvs.length_eq.symm.trans hf.uses.symm) hp.result]
      exact .refl _
  moves p q hp hm := hf.visits_of_moves hvs hargs hp hm
  performs E k p j d hp hE hd hholds hst := by
    have hlen : xs.length = vs.length := hvs.length_eq
    refine emit_produces hc ?_
    rcases hf.instr_cases hst.instr with ⟨x, hx, rfl⟩ | ⟨hpc, rfl⟩ | ⟨hpc, rfl⟩
    · cases x with
      | arg n =>
        refine get_performs hst ?_
        have hlt := hargs n (List.mem_of_getElem? hx)
        have hsp : c.function.paramCount ≤ p.sp := by
          rcases hp with hp | hp <;> rw [hp.sp] <;> lia
        rw [← hst.sp]
        exact Nat.lt_of_lt_of_le hlt hsp
      | literal l => exact literal_performs hst
    · obtain hp | hp := hp
      · have huses : stub.uses ≤ k.frame.sp := by
          rw [← hst.sp, hp.sp, hf.uses, hpc]
          exact Nat.le_add_left _ _
        refine hr.performs _ _ _ _ hst huses
          ⟨fun r h' ⟨us, hus, hrun⟩ => ?_, fun promised hsome => ?_⟩
        · have hoperands := Point.Operands.of_supplies hst.sp hus
          rw [hf.uses, hlen] at hoperands
          rw [hp.heap, hf.apply_same hvs (hp.operands (hpc.trans hlen) hoperands)] at hrun
          have htag := htold r h' hrun
          rwa [← hlen, ← hpc] at htag
        · rw [hE, Context.promised] at hsome
          split at hsome
          · exact (Option.some.inj hsome).symm
          · cases hsome
      · exact absurd (hp.pc.symm.trans hpc) (by omega)
    · obtain hp | hp := hp
      · exact absurd hp.le (by omega)
      · refine ret_performs hst ?_
        have := hst.sp.symm.trans hp.sp
        lia

/-- No instruction stops the compiler. -/
theorem not_stuck (hf : c.function.Applies i xs stub) (hvs : c.function.Inputs c.heap args xs vs)
    (hflow : c.flow.Describes c.function) : ¬ c.Stuck := by
  rintro ⟨pc, d, j, hd, hj, hflaw⟩
  have hdepth := hf.depth_of_reaches ((hflow.depth pc d).1 hd)
  have hgeneric := hf.generic
  rcases hf.instr_cases hj with ⟨x, hx, rfl⟩ | ⟨-, rfl⟩ | ⟨rfl, rfl⟩
  · obtain ⟨v, -, hval⟩ := hvs.value hx
    rcases hflaw with ⟨hret, -⟩ | ⟨k, text, hpush, htext, hnone⟩
    · cases x <;> cases hret
    · cases x with
      | arg n => cases hpush
      | literal l =>
        cases hpush
        simp [Input.value?, Function.literal?, htext, hnone] at hval
  · rcases hflaw with ⟨rfl, -⟩ | ⟨k, text, rfl, -⟩ <;> cases hgeneric
  · rcases hflaw with ⟨-, rfl⟩ | ⟨k, text, hpush, -⟩
    · omega
    · cases hpush

/-- The arguments that are pushed are those of the function. -/
theorem arg_lt {f : Function} (hf : f.Applies i xs stub) (hv : f.validate = .ok ()) (n : UInt16)
    (hn : .arg n ∈ xs) : n.toNat < f.paramCount := by
  obtain ⟨pc, hpc⟩ := List.getElem?_of_mem hn
  have hop := Function.operandFault?_of_validate hv (hf.instr_input hpc) rfl
  by_contra hge
  simp [Input.instr, Function.operandFault?, Function.varFault?, hge] at hop

/-- **A function that applies an operator** is compiled, and a run of its code ends as the operator
does on the inputs: it returns the value that the operator gives, up to the form of numbers, or it
ends where the operator fails. -/
theorem run {f : Function} {h : Heap} {o : Oracle} (hf : f.Applies i xs stub) (hoister : Hoister)
    (config : Config) (hr : Realizes i stub n m) (hconfig : config.genericOnly = false)
    (hv : f.validate = .ok ()) (hparams : f.paramCount ≤ 2 ^ 16) (hlocals : f.localCount = 0)
    (hsize : spent ((xs.length + 2) * max n 7) ((xs.length + 2) * m) (f.paramCount + f.localCount) <
      Inst.unlinked)
    (hvs : f.Inputs h args xs vs) (hfits : o.Fits f args) (htold : Foretold o stub h vs) :
    ∃ compiled, compile f h o hoister config = .ok compiled ∧ ∀ limit,
      spent ((xs.length + 2) * max n 7) ((xs.length + 2) * m)
      (f.paramCount + f.localCount) ≤ limit →
      let result := (LiveCode.ofCode compiled.code).run f h args limit false
      (∃ r v, stub.apply vs h = .ok r result.heap ∧ result.outcome = .ok (.ret v) ∧ v.same r) ∨
        ∃ e out, stub.apply vs h = .error e result.heap ∧ result.outcome = .ok out ∧
          out.FailsWith e := by
  obtain ⟨flow, hflow, hdescribes⟩ := Flow.exists_describes hf.regular
  let c : Context := ⟨f, h, o, hoister, config, flow, 0⟩
  have hbound : Context.Straight.bound c (max n 7) m =
      spent ((xs.length + 2) * max n 7) ((xs.length + 2) * m) (f.paramCount + f.localCount) := by
    rw [Context.Straight.bound, hf.size]
  have hfollows := follows (c := c) hf hr hconfig hvs (hf.arg_lt hv) htold
  obtain ⟨compiled, hcompiled, hrun⟩ := (straight (c := c) hf hr hconfig hdescribes).run
    hfollows hv hflow
    (not_stuck hf hvs hdescribes) (hbound ▸ hsize) hparams hlocals hfits
    (.inl (f.entry_pushing h args vs))
  rw [compile_eq hv hflow]
  refine ⟨compiled, hcompiled, fun limit hlimit => ?_⟩
  obtain ⟨out, q, houtcome, hmoves, hhalts⟩ := hrun limit (hbound ▸ hlimit)
  have hq : f.Visits stub h args vs q := by
    clear hhalts
    induction hmoves with
    | refl => exact .inl (f.entry_pushing h args vs)
    | tail _ hm ih => exact hf.visits_of_moves hvs (hf.arg_lt hv) ih hm
  rcases hf.halts hvs hq hhalts with ⟨r, v, hok, rfl, hsame⟩ | ⟨e, herror, hfails⟩
  · exact .inl ⟨r, v, hok, houtcome, hsame⟩
  · exact .inr ⟨e, out, herror, houtcome, hfails⟩

end Bytecode.Function.Applies

end FastPath
