import FastPath.Proofs.Compile.Totality
import FastPath.Proofs.Meaning.Instructions
import FastPath.Proofs.Meaning.Size

/-!
# Whole functions

From the code of single instructions to the code of a function. `Compilation.Builds` follows the
compiler from instruction to instruction. In a function without jumps, the code of each instruction
falls into that of the next one.
-/

namespace FastPath

open AsmM

attribute [local instance] Cell.written

open Relation (TransGen ReflTransGen)

/-- The types that the calls of the current operation are held to. -/
def Context.promised (c : Context) : Option UInt8 :=
  if c.oracle.monitored c.pc then some (c.oracle.pushed c.pc).flags.bits else none

namespace CompileM

variable {E : Placement} {c : Context} {i : Bytecode.Instr} {k : Cursor} {S : Scene} {p q : Point}

/-! ### From the start of an operation to its checks -/

variable {α : Type} {x : CompileM α} {Q : Unit → Cursor → Scene → Prop} {s s' : Compilation}

/-- A step of the compiler that emits nothing. -/
theorem produces_quiet {Q : α → Cursor → Scene → Prop}
    (hx : ∀ s r s', x c s = .ok r s' → s'.asm = s.asm ∧ s'.caches = s.caches ∧ s'.labels = s.labels)
    (h : ∀ r, Q r k S) : Produces E c x k S Q := by
  rintro s rfl hM r s' hrun
  obtain ⟨hasm, hcaches, hlabels⟩ := hx s r s' hrun
  rw [hasm]
  exact ⟨hcaches, hlabels, .refl _, hM, S, h r,
    fun _ _ => Position.leads_of_at (Nat.le_refl _) fun _ _ => id⟩

theorem advance_produces {next : Lifecycle} (h : Q () k S) : Produces E c (advance next) k S Q := by
  refine produces_quiet (fun s r s' hrun => ?_) fun _ => h
  by_cases hcan : s.lifecycle.canAdvance next
  · rw [advance_run hcan] at hrun
    cases hrun
    exact ⟨rfl, rfl, rfl⟩
  · have hget : (getThe Compilation : CompileM Compilation) c s = .ok s s := rfl
    simp only [advance, bind_run, hget, hcan] at hrun
    cases hrun

theorem endOp_emits (h : Q () k S) : Emits E endOp k S Q := by
  unfold endOp
  refine emits_bind (emits_query (fun _ => rfl) fun _ _ => ?_)
  dsimp only
  split
  · exact emits_bind emits_stale
  · refine emits_bind (emits_query (fun _ => rfl) fun a _ => ?_)
    split
    · exact emits_throw
    · exact emits_pure h

theorem finishStep_produces {emitted : Emitted} (h : Q () k S) :
    Produces E c (finishStep emitted) k S Q := by
  refine produces_bind (advance_produces ?_)
  refine produces_bind (Emits.lift (emits_query (fun _ => rfl) fun _ _ => ?_))
  dsimp only
  split
  · exact produces_read (produces_bind produces_throw)
  · exact produces_bind (advance_produces (produces_bind (Emits.lift
      (endOp_emits (advance_produces h)))))

/-- The check of the tracker adds no code. -/
theorem check_produces (h : Q () k S) : Produces E c (liftM FrameM.check) k S Q := by
  refine produces_quiet (fun s r s' hrun => ?_) fun _ => h
  change (liftM (liftM FrameM.check : AsmM Unit) : CompileM Unit) c s = _ at hrun
  rw [lift_run, AsmM.lift_run, FrameM.check, FrameM.bind_run, FrameM.frame_run] at hrun
  dsimp only at hrun
  cases hfault : s.asm.frame.fault? with
  | some v =>
    rw [hfault] at hrun
    cases hrun
  | none =>
    rw [hfault] at hrun
    cases hrun
    exact ⟨rfl, rfl, rfl⟩

/-- What is emitted after an operation has begun counts from before it. -/
theorem Produces.after_begin {Q : α → Cursor → Scene → Prop} {F : Machine → Prop} {r : α}
    {pc resumePc : Nat} {l : Lifecycle} (h : Produces E c x s.asm.cursor (.start F) Q)
    (hrun : x c { s with
      asm := { s.asm with slow := s.asm.slow.beginOp pc resumePc E.monitored }
      lifecycle := l } = .ok r s') :
    s'.caches = s.caches ∧ s'.labels = s.labels ∧ s.asm.Grows s'.asm ∧
      ∃ S', Q r s'.asm.cursor S' ∧
        (E.position.code.Contains s'.asm → s'.asm.frame.maxSp ≤ E.room →
          E.position.Leads s.asm (.start F) s'.asm S') := by
  obtain ⟨hcaches, hlabels, hg, -, S', hq, hleads⟩ := h { s with
    asm := { s.asm with slow := s.asm.slow.beginOp pc resumePc E.monitored }
    lifecycle := l } rfl rfl r s' hrun
  have hbegin : s.asm.Grows { s.asm with slow := s.asm.slow.beginOp pc resumePc E.monitored } :=
    .of_same rfl rfl (fun _ => id) rfl (Nat.le_refl _)
  refine ⟨hcaches, hlabels, hbegin.trans hg, S', hq, fun hc hN => .trans ?_ (hleads hc hN)⟩
  exact Position.leads_of_places (Nat.le_refl _)
    (fun m hm => Position.reaches_fast (Nat.le_refl _) rfl hm) (fun _ hm => hm.elim)
    (fun _ _ _ hm => hm.elim) (fun _ _ hm => hm.elim) (fun _ _ hm => hm.elim) fun _ _ hm => hm.elim

/-- **The code of an operation has the effects of its instructions.** -/
theorem compileOp_performs {d n : Nat} (hmonitored : E.monitored = c.promised)
    (hemit : Produces E c (emit i) s.asm.cursor (.start (s.asm.frame.Carries E.room p.store))
      fun r k' S' => S'.Performs E c.function p r.2 s.asm.frame k')
    (h : compileOp i d c s = .ok n s') :
    s'.caches = s.caches ∧ s'.labels = s.labels ∧ s.asm.Grows s'.asm ∧
      ∃ S', S'.Performs E c.function p n s.asm.frame s'.asm.cursor ∧
        (E.position.code.Contains s'.asm → s'.asm.frame.maxSp ≤ E.room →
          E.position.Leads s.asm (.start (s.asm.frame.Carries E.room p.store)) s'.asm S') := by
  obtain ⟨_, s₁, hread, h⟩ := bind_ok_inv h
  cases hread
  obtain ⟨_, s₂, hstart, h⟩ := bind_ok_inv h
  cases hstart
  obtain ⟨_, s₃, hbegin, h⟩ := bind_ok_inv h
  rw [lift_run, ← Context.promised, ← hmonitored] at hbegin
  cases hbegin
  refine Produces.after_begin (Q := fun n k' S' => S'.Performs E c.function p n s.asm.frame k') ?_ h
  refine produces_bind (advance_produces (hemit.bind fun r k' S' hp => ?_))
  refine produces_bind (finishStep_produces (produces_bind (check_produces (produces_bind
    (Emits.lift (emits_frame ?_))))))
  dsimp only
  split
  · exact produces_pure hp
  · exact produces_bind produces_throw

end CompileM

/-! ### From instruction to instruction -/

/-- The compiler gets from the instruction at a pc to the end of the function, where it
leaves `t`. -/
inductive Compilation.Builds (c : Context) (t : Compilation) : Nat → Bool → Compilation → Prop
  | done {pc : Nat} : c.function.code.size ≤ pc → Builds c t pc false t
  | skip {pc : Nat} {s : Compilation} {i : Bytecode.Instr} : c.function.code[pc]? = some i →
      c.flow.depth? pc = none → Builds c t (pc + 1) false s → Builds c t pc false s
  | op {pc n d : Nat} {live : Bool} {s s₁ s₂ : Compilation} {σ : Sketch} {i last : Bytecode.Instr} :
      c.function.code[pc]? = some i → c.flow.depth? pc = some d →
      CompileM.enter d live { c with pc } s = .ok () s₁ → s₁.Entered { c with pc } d σ →
      CompileM.compileOp i d { c with pc } s₁ = .ok n s₂ →
      c.function.code[pc + n]? = some last →
      Builds c t (pc + n + 1) (!last.isTerminator) s₂ → Builds c t pc live s

namespace CompileM

variable {c : Context} {s t : Compilation} {σ : Sketch} {live : Bool} {pc d : Nat}

/-- The compiler goes from instruction to instruction. -/
theorem builds_of_compileFrom (hv : c.function.validate = .ok ())
    (hset : c.flow.Settled c.function []) (hentry : c.flow.depth? 0 = some 0)
    (hs : s.Between c pc live σ) (h : compileFrom c.function pc live c s = .ok () t) :
    Compilation.Builds c t pc live s := by
  induction hn : c.function.code.size - pc using Nat.strongRecOn generalizing pc live s σ with
  | ind n ih =>
    subst hn
    cases hi : c.function.code[pc]? with
    | none =>
      have hend := Array.getElem?_eq_none_iff.1 hi
      cases live with
      | false =>
        rw [compileFrom_end hend] at h
        cases h
        exact .done hend
      | true =>
        obtain ⟨d, hd, -⟩ := hs.depth rfl
        obtain ⟨-, i, -, hi', -⟩ := hset.visited pc d hd
        cases hi.symm.trans hi'
    | some i =>
      obtain ⟨hpc, -⟩ := Array.getElem?_eq_some_iff.1 hi
      cases hd : c.flow.depth? pc with
      | none =>
        obtain ⟨rfl, hs'⟩ := between_skip hentry hs hd
        rw [compileFrom_skip hi hd] at h
        exact .skip hi hd (ih _ (by lia) hs' h rfl)
      | some d =>
        obtain ⟨s₁, σ₁, henter, hs₁, hstep⟩ := between_step hv hset hs hi hd
        rw [compileFrom_step hi hd, bind_run, henter] at h
        have hflaw : ¬ c.Flawed i d := by
          intro hflaw
          cases hop : compileOp i d { c with pc } s₁ with
          | ok n s₂ => exact compileOp_flawed (c := { c with pc }) hi hflaw hop
          | error e s₂ =>
            simp only [hop] at h
            cases h
        obtain ⟨n, last, s₂, σ₂, hop, hlast, hs₂⟩ := hstep hflaw
        simp only [hop, hlast] at h
        exact .op hi hd henter hs₁ hop hlast (ih _ (by lia) hs₂ h rfl)

end CompileM

end FastPath
