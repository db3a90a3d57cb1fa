import FastPath.Proofs.Bytecode.Validation
import FastPath.Proofs.Compile.Comparison
import FastPath.Proofs.Compile.Construction
import FastPath.Proofs.Compile.Numeric
import FastPath.Proofs.Compile.Bitwise

/-!
# What every instruction delivers

Two things that validation and flow analysis let pass can still stop the compiler: a string
literal that the heap does not have, and a return that finds the stack empty. Such an
instruction is called flawed here. Any other reached instruction is compiled, and the stack
changes as its bytecode says.

## Main results

* `CompileM.emit_completes`: the emitters, dispatched on the instruction.
* `CompileM.compileOp_run`: an operation from its start to its checks.
* `CompileM.compileOp_flawed`: a flawed instruction stops the compiler.
-/

namespace FastPath

open FrameM Frame Bytecode

namespace Bytecode.Function

variable {f : Function} {pc : Nat} {i : Instr}

theorem instrError?_of_validate (h : f.validate = .ok ()) (hi : f.code[pc]? = some i) :
    f.instrError? pc i = none :=
  (instrError?_eq_none_iff hi).2 ((validate_eq_ok_iff.1 h).1 pc i hi)

/-- The operands of valid code refer to something. -/
theorem operandFault?_of_validate (h : f.validate = .ok ()) (hi : f.code[pc]? = some i)
    (hj : i.jumpOffset? = none) : f.operandFault? i = none := by
  have herror := instrError?_of_validate h hi
  rw [instrError?, hj] at herror
  simpa using herror

end Bytecode.Function

/-- The instruction cannot be compiled although it is valid and reached. -/
def Context.Flawed (c : Context) (i : Instr) (depth : Nat) : Prop :=
  (i = .ret ∧ depth = 0) ∨ ∃ k text, i = .push (.string k) ∧
    c.function.stringConstant? k.toNat = some text ∧ c.heap.findString? text = none

/-- The frame is that of the function, with the given number of values on the stack. -/
structure Context.Holds (c : Context) (depth : Nat) (f : Frame) : Prop where
  argCount : f.argCount = c.function.paramCount
  localCount : f.localCount = c.function.localCount
  sp : f.sp = f.stackBase + depth

/-- Variables are below the stack. -/
theorem Context.Holds.varSlot_lt {c : Context} {depth : Nat} {f : Frame} {v : Var}
    (h : c.Holds depth f) (hv : c.function.varFault? v = none) : f.varSlot v < f.stackBase := by
  obtain ⟨hargs, hlocals, -⟩ := h
  cases v with
  | arg i =>
    have : i.toNat < c.function.paramCount := by
      by_contra hge
      simp [Function.varFault?, hge] at hv
    simp only [varSlot, stackBase, hargs]
    lia
  | loc i =>
    have : i.toNat < c.function.localCount := by
      by_contra hge
      simp [Function.varFault?, hge] at hv
    simp only [varSlot, stackBase, hargs, hlocals]
    lia

namespace CompileM

variable {c : Context} {σ : Sketch} {i : Instr} {d : Nat}

/-! ### Operations compiled by themselves -/

variable {x : CompileM Emitted} {s s' : Compilation}

/-- An operation that leaves the stack as its bytecode says. -/
theorem single_delivers (hi : c.function.code[c.pc]? = some i)
    (huses : i.stackEffect.uses ≤ σ.frame.sp) (h : Delivers c x σ fun _ σ' => (σ'.Clean ∧
      σ'.frame.sp = σ.frame.sp - i.stackEffect.uses + i.stackEffect.defs) ∧
      (i.isTerminator → σ'.shape .fast = Shape.all)) :
    Delivers c (single x) σ fun r σ' => Completes c σ r.2 σ' :=
  h.bind fun _ _ h' => delivers_pure (.single hi h'.1.1 huses h'.1.2 h'.2)

/-- An operation that control falls through. -/
theorem falling_delivers (hi : c.function.code[c.pc]? = some i) (ht : i.isTerminator = false)
    (huses : i.stackEffect.uses ≤ σ.frame.sp) (h : Delivers c x σ fun _ σ' => σ'.Clean ∧
      σ'.frame.sp = σ.frame.sp - i.stackEffect.uses + i.stackEffect.defs) :
    Delivers c (single x) σ fun r σ' => Completes c σ r.2 σ' :=
  single_delivers hi huses (h.mono fun _ _ h' => ⟨h', by simp [ht]⟩)

theorem frameOnly_delivers {x : FrameM Unit} (hi : c.function.code[c.pc]? = some i)
    (ht : i.isTerminator = false) (huses : i.stackEffect.uses ≤ σ.frame.sp)
    (h : Delivers c (liftM x) σ fun _ σ' => σ'.Clean ∧
      σ'.frame.sp = σ.frame.sp - i.stackEffect.uses + i.stackEffect.defs) :
    Delivers c (frameOnly x) σ fun r σ' => Completes c σ r.2 σ' :=
  h.bind fun _ _ h' => delivers_pure (.single hi h'.1 huses h'.2 (by simp [ht]))

/-- An operation that is one change of the frame. -/
theorem change_completes {g : Frame → Frame} (hi : c.function.code[c.pc]? = some i)
    (ht : i.isTerminator = false) (huses : i.stackEffect.uses ≤ σ.frame.sp) (hσ : σ.Clean)
    (hx : Settles c.slots (update g) σ.frame σ.loans (σ.shape .fast)
      fun _ f' L' => f' = g σ.frame ∧ L' = σ.loans)
    (hsp : (g σ.frame).sp = σ.frame.sp - i.stackEffect.uses + i.stackEffect.defs) :
    Delivers c (frameOnly (update g)) σ fun r σ' => Completes c σ r.2 σ' :=
  frameOnly_delivers hi ht huses ((change_delivers hσ hx).mono fun _ _ h =>
    ⟨h.1, h.2.1 ▸ hsp⟩)

theorem pushConstant_delivers {v : Value} (hσ : σ.Clean) (hv : v.tag ≠ .object) :
    Delivers c (pushConstant v) σ fun _ σ' => σ'.Clean ∧ σ'.frame.sp = σ.frame.sp + 1 := by
  refine (change_delivers hσ (pushConstant_settles hv)).bind ?_
  rintro - σ₁ ⟨hσ₁, hf₁, -⟩
  exact delivers_pure ⟨hσ₁, by rw [hf₁]; rfl⟩

/-- A literal has a value, which is no object. -/
theorem literalValue_delivers {l : Literal} {Q : Value → Sketch → Prop}
    (hop : c.function.operandFault? (.push l) = none) (hflaw : ¬ c.Flawed (.push l) d)
    (h : ∀ v, v.tag ≠ .object → Q v σ) : Delivers c (literalValue l) σ Q := by
  cases l with
  | undefined | null | bool b | int32 i => exact delivers_pure (h _ nofun)
  | double k =>
    refine delivers_read ?_
    cases hk : c.function.numberConstant? k.toNat with
    | none => simp [Function.operandFault?, hk] at hop
    | some v => exact delivers_pure (h _ nofun)
  | string k =>
    refine delivers_read ?_
    cases hk : c.function.stringConstant? k.toNat with
    | none => simp [Function.operandFault?, Function.nameFault?, hk] at hop
    | some text =>
      dsimp only
      cases hs : c.heap.findString? text with
      | none => exact absurd (.inr ⟨k, text, rfl, hk, hs⟩) hflaw
      | some s => exact delivers_pure (h _ nofun)

/-- Nothing follows a jump in the fast stream. -/
theorem goto_delivers {t : Nat} (hσ : σ.Clean) (htarget : c.function.jumpTarget? c.pc = some t)
    (ht : c.Jumps t) :
    Delivers c goto σ fun _ σ' => (σ'.Clean ∧ σ'.frame.sp = σ.frame.sp) ∧
      σ'.shape .fast = Shape.all := by
  refine delivers_bind (jumpTarget_delivers htarget ?_)
  refine delivers_routed hσ.lent fun hr => ?_
  refine (delivers_frame hr.syncAll).bind fun _ σ₁ h₁ => ?_
  refine (jump_delivers (g := .always) h₁ trivial ht).andThen fun _ σ₂ h₂ => ?_
  exact delivers_pure ⟨⟨h₂.clean, by rw [h₂.frame]; rfl⟩, Shape.eq_all h₂.fast⟩

/-- Nothing follows a return in the fast stream. -/
theorem ret_delivers (hσ : σ.Clean) (hn : σ.frame.stackBase < σ.frame.sp) :
    Delivers c ret σ fun _ σ' => (σ'.Clean ∧ σ'.frame.sp = σ.frame.sp - 1) ∧
      σ'.shape .fast = Shape.all := by
  refine delivers_queryFrame ?_
  refine (source_delivers hσ.lent (by decide) (by decide) (peek_lt (by decide) hn)).bind
    fun src σ₁ h₁ => ?_
  refine delivers_armed h₁ fun _ ha₁ => ?_
  refine (emit_delivers (i := .ret src) ha₁ rfl rfl (Loans.reads_pinSource _ src _)).bind ?_
  rintro - σ₂ ⟨ha₂, hw₂⟩
  refine (unpinSource_delivers src (ha₂.releasing (hw₂.trans h₁.waiting))).bind fun _ σ₃ h₃ => ?_
  have hL : (Loans.none.pinSource src).unpinSource src = Loans.none := by
    cases src <;> simp [Loans.none, Loans.pinSource, Loans.unpinSource, Loans.addPins,
      Loans.dropPins, Loans.addFPins, Loans.dropFPins]
  rw [hL] at h₃
  refine (pop_delivers h₃ (by rw [h₁.base, h₁.sp]; exact hn)).bind fun _ σ₄ h₄ => ?_
  exact delivers_pure ⟨⟨h₄.clean, h₁.sp ▸ h₄.sp⟩, Shape.eq_all h₄.fast⟩

/-- Nothing follows a return in the fast stream. -/
theorem returnUndefined_delivers (hσ : σ.Clean) :
    Delivers c (do AsmM.emit .fast (.ret (.constant .undefined)); return Emitted.inline) σ
      fun _ σ' => (σ'.Clean ∧ σ'.frame.sp = σ.frame.sp) ∧ σ'.shape .fast = Shape.all := by
  refine delivers_armed hσ.lent fun _ ha => ?_
  refine (emit_delivers (i := .ret (.constant .undefined)) ha rfl rfl trivial).bind ?_
  rintro - σ₁ ⟨ha₁, hw₁⟩
  have h₁ := ha₁.releasing (hw₁.trans hσ.waiting)
  exact delivers_pure ⟨⟨h₁.clean, h₁.sp⟩, Shape.eq_all h₁.fast⟩

/-! ### Dispatch -/

/-- The stub of an instruction has its stack effect. -/
theorem genericStub?_effect {stub : Stub} (h : genericStub? i = some stub) :
    stub.uses = i.stackEffect.uses ∧ stub.defs = i.stackEffect.defs ∧ i.isTerminator = false := by
  cases i <;> cases h <;> exact ⟨rfl, rfl, rfl⟩

section

variable (hc : c.Reached) (hv : c.function.validate = .ok ())
  (hi : c.function.code[c.pc]? = some i) (hd : c.flow.depth? c.pc = some d)
  (hflaw : ¬ c.Flawed i d) (hσ : σ.Clean) (hh : c.Holds d σ.frame)
include hc hv hi hd hflaw hσ hh

/-- Every instruction has an emitter that completes it. -/
theorem emitInline_delivers :
    Delivers c (emitInline i) σ fun r σ' => Completes c σ r.2 σ' := by
  have hsp := hh.sp
  have hfall : i.isTerminator = false → i.stackEffect.uses ≤ d := fun ht =>
    (hc.settled.fall hd hi ht).1
  have hop := Function.operandFault?_of_validate hv hi
  have hvar := fun v => hh.varSlot_lt (v := v)
  unfold emitInline
  cases i with
  | nop | loopHead => exact frameOnly_delivers hi rfl (Nat.zero_le _) (delivers_pure ⟨hσ, rfl⟩)
  | push l =>
    refine falling_delivers hi rfl (Nat.zero_le _) ?_
    exact delivers_bind (literalValue_delivers (hop rfl) hflaw fun v hv =>
      pushConstant_delivers hσ hv)
  | get v =>
    refine delivers_ready fun hready _ => change_completes hi rfl (Nat.zero_le _) hσ ?_ ?_
    · exact pushCopy_settles rfl (Nat.lt_of_lt_of_le (hvar v (hop rfl)) hready.base)
    · exact sp_pushCopy ..
  | set v =>
    have hn : 1 ≤ d := hfall rfl
    refine frameOnly_delivers hi rfl (show 1 ≤ σ.frame.sp by lia) ?_
    refine (storeVar_delivers hσ (hvar v (hop rfl)) (by lia)).mono ?_
    rintro - σ₁ ⟨hσ₁, hsp₁⟩
    refine ⟨hσ₁, hsp₁.trans ?_⟩
    change σ.frame.sp = σ.frame.sp - 1 + 1
    lia
  | bump form v => exact bump_delivers hi hσ (hvar v (hop rfl))
  | pop =>
    have hn : 1 ≤ d := hfall rfl
    exact change_completes hi rfl (show 1 ≤ σ.frame.sp by lia) hσ
      (pop_settles (by lia)) rfl
  | dup =>
    have hn : 1 ≤ d := hfall rfl
    refine change_completes hi rfl (show 1 ≤ σ.frame.sp by lia) hσ ?_ ?_
    · exact pushCopy_settles rfl (peek_lt (by decide) (by lia))
    · change (σ.frame.pushCopy _).sp = σ.frame.sp - 1 + 2
      rw [sp_pushCopy]
      lia
  | swap =>
    have hn : 2 ≤ d := hfall rfl
    refine frameOnly_delivers hi rfl (show 2 ≤ σ.frame.sp by lia) ?_
    refine (assign_delivers hσ.releasing fun hf =>
      swap_delivers hf (by lia)).mono fun _ _ h => ⟨h.clean, h.sp.trans ?_⟩
    change σ.frame.sp = σ.frame.sp - 2 + 2
    lia
  | arith op =>
    have hn : 2 ≤ d := hfall rfl
    refine falling_delivers hi rfl (show 2 ≤ σ.frame.sp by lia) ?_
    exact delivers_bind (stubTypes_delivers fun _ _ => arith_delivers hσ (by lia))
  | pos =>
    have hn : 1 ≤ d := hfall rfl
    refine falling_delivers hi rfl (show 1 ≤ σ.frame.sp by lia) ?_
    refine (pos_delivers hσ (by lia)).mono fun _ _ h => ⟨h.1, h.2.trans ?_⟩
    exact (Nat.sub_add_cancel (show 1 ≤ σ.frame.sp by lia)).symm
  | bit op =>
    have hn : 2 ≤ d := hfall rfl
    exact falling_delivers hi rfl (show 2 ≤ σ.frame.sp by lia) (bitOp_delivers hσ (by lia))
  | bitNot =>
    have hn : 1 ≤ d := hfall rfl
    refine falling_delivers hi rfl (show 1 ≤ σ.frame.sp by lia) ?_
    refine (bitNot_delivers hσ (by lia)).mono fun _ _ h => ⟨h.1, h.2.trans ?_⟩
    exact (Nat.sub_add_cancel (show 1 ≤ σ.frame.sp by lia)).symm
  | compare op =>
    have hn : 2 ≤ d := hfall rfl
    exact compare_delivers hc hi hσ (by lia)
  | not =>
    have hn : 1 ≤ d := hfall rfl
    refine falling_delivers hi rfl (show 1 ≤ σ.frame.sp by lia) ?_
    refine (not_delivers hσ (by lia)).mono fun _ _ h => ⟨h.1, h.2.trans ?_⟩
    exact (Nat.sub_add_cancel (show 1 ≤ σ.frame.sp by lia)).symm
  | typeOf =>
    have hn : 1 ≤ d := hfall rfl
    exact typeOf_delivers hc hi hσ (by lia)
  | goto off =>
    obtain ⟨t, htarget, ht⟩ := hc.jump (.zero c) hi rfl
    exact single_delivers hi (Nat.zero_le _) ((goto_delivers hσ htarget ht).mono fun _ _ h =>
      ⟨h.1, fun _ => h.2⟩)
  | branch kind off =>
    have hn : 1 ≤ d := hfall rfl
    obtain ⟨t, htarget, ht⟩ := hc.jump (.zero c) hi rfl
    exact falling_delivers hi rfl (show 1 ≤ σ.frame.sp by lia)
      (branchOn_delivers hσ (by lia) htarget ht)
  | getElem =>
    have hn : 2 ≤ d := hfall rfl
    exact falling_delivers hi rfl (show 2 ≤ σ.frame.sp by lia) (getElem_delivers hσ (by lia))
  | setElem =>
    have hn : 3 ≤ d := hfall rfl
    exact falling_delivers hi rfl (show 3 ≤ σ.frame.sp by lia) (setElem_delivers hσ (by lia))
  | newInit | newObject t | newArray n =>
    exact falling_delivers hi rfl (Nat.zero_le _) (newLiteral_delivers hσ (by simp))
  | initProp name =>
    have hn : 2 ≤ d := hfall rfl
    refine falling_delivers hi rfl (show 2 ≤ σ.frame.sp by lia) ?_
    refine (initProp_delivers hσ (by lia)).mono fun _ _ h => ⟨h.1, h.2.trans ?_⟩
    change σ.frame.sp - 1 = σ.frame.sp - 2 + 1
    lia
  | initMethod name =>
    have hn : 2 ≤ d := hfall rfl
    refine falling_delivers hi rfl (show 2 ≤ σ.frame.sp by lia) ?_
    refine (initGeneric_delivers .initMethod hσ
      (show σ.frame.stackBase + 2 ≤ _ by lia)).mono fun _ _ h => ⟨h.1, h.2.trans ?_⟩
    change σ.frame.sp - 1 = σ.frame.sp - 2 + 1
    lia
  | initElem =>
    have hn : 3 ≤ d := hfall rfl
    refine falling_delivers hi rfl (show 3 ≤ σ.frame.sp by lia) ?_
    refine (initElem_delivers hσ (by lia)).mono fun _ _ h => ⟨h.1, h.2.trans ?_⟩
    change σ.frame.sp - 2 = σ.frame.sp - 3 + 1
    lia
  | endInit => exact change_completes hi rfl (Nat.zero_le _) hσ (noteInit_settles nofun) rfl
  | ret =>
    have hn : 0 < d := Nat.pos_of_ne_zero fun hd => hflaw (.inl ⟨rfl, hd⟩)
    exact single_delivers hi (show 1 ≤ σ.frame.sp by lia)
      ((ret_delivers hσ (by lia)).mono fun _ _ h => ⟨h.1, fun _ => h.2⟩)
  | returnUndefined =>
    exact single_delivers hi (Nat.zero_le _)
      ((returnUndefined_delivers hσ).mono fun _ _ h => ⟨h.1, fun _ => h.2⟩)

theorem emit_completes :
    Delivers c (emit i) σ fun r σ' => Completes c σ r.2 σ' := by
  have hinline := emitInline_delivers hc hv hi hd hflaw hσ hh
  refine delivers_read ?_
  split
  · next stub _ hstub =>
    obtain ⟨huses, hdefs, hterm⟩ := genericStub?_effect hstub
    have hn := (hc.settled.fall hd hi hterm).1
    have hsp := hh.sp
    refine falling_delivers hi hterm (by lia) ?_
    rw [← huses, ← hdefs]
    exact emitStub_delivers stub hσ (by lia)
  · exact hinline

/-! ### From the start of an operation to its checks -/

/-- An operation that is compiled passes its checks. -/
theorem compileOp_run (hs : s.Typed c σ) :
    ∃ n s' σ', compileOp i d c s = .ok n s' ∧ s'.Typed c σ' ∧ s'.labels = s.labels ∧
      σ.Precedes σ' ∧ Completes c σ n σ' := by
  let monitored := if c.oracle.monitored c.pc then some (c.oracle.pushed c.pc).flags.bits else none
  let begun : Compilation := { s with
    asm := { s.asm with slow := s.asm.slow.beginOp c.pc (c.pc + 1) monitored }
    lifecycle := .classified }
  have hbegun : begun.Typed c σ :=
    ⟨⟨hs.asm.ready, hs.asm.fast, hs.asm.books.beginOp hσ.pending .., hs.asm.typing⟩, hs.caches⟩
  obtain ⟨⟨emitted, n⟩, s₁, σ₁, hemit, hs₁, hl₁, hlabels, hprec, hcompl⟩ :=
    emit_completes hc hv hi hd hflaw hσ hh begun hbegun rfl
  refine ⟨n, { s₁ with lifecycle := .rejoined }, σ₁, ?_, ⟨hs₁.asm, hs₁.caches⟩, hlabels, hprec,
    hcompl⟩
  have hs₂ : ({ s₁ with lifecycle := .rejoined } : Compilation).Typed c σ₁ :=
    ⟨hs₁.asm, hs₁.caches⟩
  have hfound : effectOf c.function.code c.pc (n + 1) = (σ₁.frame.depth : Int) - d := by
    have heffect := hcompl.effect
    have hsp := hh.sp
    have hbase := hprec.stackBase
    have hle := hs₁.asm.ready.base
    simp only [depth]
    lia
  refine bind_ok rfl (bind_ok rfl (bind_ok rfl (bind_ok (advance_run rfl) (bind_ok hemit ?_))))
  refine bind_ok (finishStep_run hs₁ hl₁ hcompl.clean.waiting hcompl.clean.pending) ?_
  refine bind_ok (check_run hs₂ hcompl.clean.loans) (bind_ok (a := s₁.asm.frame) rfl ?_)
  dsimp only
  rw [hs₁.asm.books.frame, if_pos hfound]
  rfl

end

theorem bind_ok_inv {α β : Type} {x : CompileM α} {k : α → CompileM β} {b : β}
    (h : (x >>= k) c s = .ok b s') : ∃ a s₁, x c s = .ok a s₁ ∧ k a c s₁ = .ok b s' := by
  rw [bind_run] at h
  split at h
  · next a s₁ hx => exact ⟨a, s₁, hx, h⟩
  · cases h

/-- A flawed instruction is not compiled: its literal is not there, or the stack cannot shrink
as its bytecode says. -/
theorem compileOp_flawed {n : Nat} (hi : c.function.code[c.pc]? = some i) (hflaw : c.Flawed i d) :
    compileOp i d c s ≠ .ok n s' := by
  intro h
  obtain ⟨_, s₁, hread, h⟩ := bind_ok_inv h
  cases hread
  obtain ⟨-, s₂, -, h⟩ := bind_ok_inv h
  obtain ⟨-, s₃, -, h⟩ := bind_ok_inv h
  obtain ⟨-, s₄, -, h⟩ := bind_ok_inv h
  obtain ⟨⟨emitted, m⟩, s₅, hemit, h⟩ := bind_ok_inv h
  obtain ⟨_, s', hread, hemit⟩ := bind_ok_inv hemit
  cases hread
  rcases hflaw with ⟨rfl, rfl⟩ | ⟨k, text, rfl, htext, hnone⟩
  · obtain ⟨e, s₆, -, hret⟩ := bind_ok_inv
      (show single ret c s₄ = .ok (emitted, m) s₅ by
        simpa [genericStub?, emitInline] using hemit)
    cases hret
    obtain ⟨-, s₆, -, h⟩ := bind_ok_inv h
    obtain ⟨-, s₇, -, h⟩ := bind_ok_inv h
    obtain ⟨f, s₈, -, h⟩ := bind_ok_inv h
    dsimp only at h
    rw [effectOf_succ hi, effectOf_zero] at h
    split at h
    · next heq =>
      simp [Instr.stackEffect, Instr.StackEffect.delta] at heq
    · cases h
  · obtain ⟨e, s₆, hpush, -⟩ := bind_ok_inv
      (show single (literalValue (.string k) >>= pushConstant) c s₄ = .ok (emitted, m) s₅ by
        simpa [genericStub?, emitInline] using hemit)
    obtain ⟨v, s₇, hvalue, -⟩ := bind_ok_inv hpush
    obtain ⟨_, s₈, hread, hvalue⟩ := bind_ok_inv hvalue
    cases hread
    simp only [htext, hnone] at hvalue
    cases hvalue

end CompileM

end FastPath
