import FastPath.Proofs.Compile.Delivery
import FastPath.Proofs.Bytecode.Flow

/-!
# Delivering one operation

`CompileM.Delivers` is `AsmM.Delivers` for emitters, which also see the context, record caches
and follow the lifecycle of their operation.

## Main results

* `CompileM.delivers_bind` and its companions: one rule for each way to build an emitter.
* `CompileM.nextStep_delivers`: a part of an operation that leaves nothing open can be closed.
* `CompileM.emitStubTyped_delivers`: a stub call in place of the operation.
-/

namespace FastPath

open FrameM Bytecode

/-- Bytecode instructions that are jumped to. -/
def Context.Jumps (c : Context) (n : Nat) : Prop := c.flow.isJumpTarget n ∧ c.flow.isReachable n

/-- As many slots as the function needs by its bytecode. -/
def Context.slots (c : Context) : Nat :=
  c.function.paramCount + c.function.localCount + c.flow.maxDepth

/-- Control falls through the `n` instructions from the current pc on. -/
def Context.Falls (c : Context) (n : Nat) : Prop :=
  ∀ k < n, ∃ i, c.function.code[c.pc + k]? = some i ∧ i.isTerminator = false

theorem Context.Falls.zero (c : Context) : c.Falls 0 := nofun

theorem Context.Falls.succ {c : Context} {n : Nat} {i : Instr} (h : c.Falls n)
    (hi : c.function.code[c.pc + n]? = some i) (ht : i.isTerminator = false) : c.Falls (n + 1) := by
  intro k hk
  rcases Nat.lt_succ_iff_lt_or_eq.1 hk with hk | rfl
  · exact h k hk
  · exact ⟨i, hi, ht⟩

/-- The operation is reached, and so is what control leads to from it. -/
structure Context.Reached (c : Context) : Prop where
  settled : c.flow.Settled c.function []
  reached : c.flow.isReachable c.pc

namespace Context.Reached

variable {c : Context} {n : Nat} {i : Instr}

/-- Instructions that control falls through to are reached. -/
theorem ahead (h : c.Reached) (hfall : c.Falls n) : c.flow.isReachable (c.pc + n) := by
  induction n with
  | zero => exact h.reached
  | succ n ih =>
    obtain ⟨d, hd⟩ := Option.isSome_iff_exists.1
      (ih fun k hk => hfall k (Nat.lt_succ_of_lt hk))
    obtain ⟨i, hi, ht⟩ := hfall n (Nat.lt_succ_self n)
    exact Option.isSome_of_eq_some (h.settled.fall hd hi ht).2

/-- A jump that control falls through to has a target. -/
theorem jump (h : c.Reached) (hfall : c.Falls n) (hi : c.function.code[c.pc + n]? = some i)
    (he : i.takenEffect?.isSome) :
    ∃ t, c.function.jumpTarget? (c.pc + n) = some t ∧ c.Jumps t := by
  obtain ⟨d, hd⟩ := Option.isSome_iff_exists.1 (h.ahead hfall)
  obtain ⟨e, he⟩ := Option.isSome_iff_exists.1 he
  obtain ⟨t, ht, -, htarget, hdepth⟩ := h.settled.taken hd hi he
  exact ⟨t, ht, htarget, Option.isSome_of_eq_some hdepth⟩

end Context.Reached

/-- What has been compiled agrees with the sketch. -/
structure Compilation.Typed (s : Compilation) (c : Context) (σ : Sketch) : Prop where
  asm : s.asm.Typed c.Jumps c.slots σ
  caches : s.caches.toList = σ.caches

namespace CompileM

variable {α β : Type} {c : Context} {σ : Sketch}

/-! ### Stack effects -/

section Effect

variable {code : Array Instr} {pc n : Nat} {i : Instr}

theorem effectOf_zero : effectOf code pc 0 = 0 := by
  simp [effectOf]

theorem effectOf_succ (h : code[pc]? = some i) :
    effectOf code pc (n + 1) = i.stackEffect.delta + effectOf code (pc + 1) n := by
  obtain ⟨hlt, rfl⟩ := Array.getElem?_eq_some_iff.1 h
  have hdrop := List.drop_eq_getElem_cons (l := code.toList) (i := pc) (by simpa using hlt)
  simp [effectOf, hdrop]

/-- The effect of one more instruction. -/
theorem effectOf_concat (h : code[pc + n]? = some i) :
    effectOf code pc (n + 1) = effectOf code pc n + i.stackEffect.delta := by
  induction n generalizing pc with
  | zero =>
    rw [effectOf_succ (show code[pc]? = some i from h), effectOf_zero,
      effectOf_zero, Int.add_comm]
  | succ n ih =>
    obtain ⟨hlt, -⟩ := Array.getElem?_eq_some_iff.1 h
    have hpc : code[pc]? = some code[pc] := Array.getElem?_eq_getElem (by lia)
    rw [effectOf_succ hpc, effectOf_succ hpc, ih (by rw [← h]; congr 1; lia), Int.add_assoc]

/-- The effect of an instruction that pops what it uses. -/
theorem delta_eq {e : Instr.StackEffect} {m m' : Nat} (hm : e.uses ≤ m)
    (h : m' = m - e.uses + e.defs) : (m' : Int) = m + e.delta := by
  simp only [Instr.StackEffect.delta]
  omega

end Effect

/-- The operation at the current pc is complete, together with the `n` instructions that
follow: nothing is open, the stack has changed as the bytecode says, and no jump lands in
between. -/
structure Completes (c : Context) (σ : Sketch) (n : Nat) (σ' : Sketch) : Prop where
  clean : σ'.Clean
  effect : (σ'.frame.sp : Int) = σ.frame.sp + effectOf c.function.code c.pc (n + 1)
  falls : c.Falls n
  absorbed : ∀ k < n, c.flow.isJumpTarget (c.pc + k + 1) = false
  last : ∃ i, c.function.code[c.pc + n]? = some i ∧
    (i.isTerminator → σ'.shape .fast = Shape.all)

/-- An operation that is compiled by itself. -/
theorem Completes.single {i : Instr} {σ' : Sketch} (hi : c.function.code[c.pc]? = some i)
    (hσ : σ'.Clean) (huses : i.stackEffect.uses ≤ σ.frame.sp)
    (hsp : σ'.frame.sp = σ.frame.sp - i.stackEffect.uses + i.stackEffect.defs)
    (hterm : i.isTerminator → σ'.shape .fast = Shape.all) : Completes c σ 0 σ' where
  clean := hσ
  effect := by
    rw [effectOf_succ hi, effectOf_zero, Int.add_zero]
    exact delta_eq huses hsp
  falls := .zero c
  absorbed := nofun
  last := ⟨i, hi, hterm⟩

theorem bind_run (x : CompileM α) (k : α → CompileM β) (c : Context) (s : Compilation) :
    (x >>= k) c s = match x c s with
      | .ok a s' => k a c s'
      | .error e s' => .error e s' := by
  change EStateM.bind (x c) (fun a => k a c) s = _
  unfold EStateM.bind
  cases x c s <;> rfl

variable {x : CompileM α} {k : α → CompileM β} {s : Compilation} {Q : α → Sketch → Prop}
  {g : Frame → Frame} {stub : Stub} {ahead n : Nat} {emitted : Emitted} {arg : Int64}

theorem bind_ok {s' : Compilation} {a : α} {r : EStateM.Result CompileError Compilation β}
    (hx : x c s = .ok a s') (hk : k a c s' = r) : (x >>= k) c s = r := by
  rw [bind_run, hx]
  exact hk

/-- The emitter succeeds in the middle of an operation, and what it leaves behind agrees with a
sketch that satisfies `Q`. -/
def Delivers (c : Context) (x : CompileM α) (σ : Sketch) (Q : α → Sketch → Prop) : Prop :=
  ∀ s : Compilation, s.Typed c σ → s.lifecycle = .classified →
    ∃ v s' σ', x c s = .ok v s' ∧ s'.Typed c σ' ∧ s'.lifecycle = .classified ∧
      s'.labels = s.labels ∧ σ.Precedes σ' ∧ Q v σ'

/-! ### Structural rules -/

theorem Delivers.mono {Q' : α → Sketch → Prop} (h : Delivers c x σ Q)
    (hQ : ∀ v σ', Q v σ' → Q' v σ') : Delivers c x σ Q' := by
  intro s hs hl
  obtain ⟨v, s', σ', hx, hs', hl', hlabels, hp, hq⟩ := h s hs hl
  exact ⟨v, s', σ', hx, hs', hl', hlabels, hp, hQ v σ' hq⟩

theorem delivers_pure {v : α} (h : Q v σ) : Delivers c (pure v) σ Q :=
  fun s hs hl => ⟨v, s, σ, rfl, hs, hl, rfl, .refl σ, h⟩

theorem delivers_bind {Q : β → Sketch → Prop}
    (h : Delivers c x σ fun v σ' => Delivers c (k v) σ' Q) :
    Delivers c (x >>= k) σ Q := by
  intro s hs hl
  obtain ⟨v, s', σ', hx, hs', hl', hlabels, hp, hk⟩ := h s hs hl
  obtain ⟨w, s'', σ'', hy, hs'', hl'', hlabels', hp', hq⟩ := hk s' hs' hl'
  exact ⟨w, s'', σ'', by rw [bind_run, hx]; exact hy, hs'', hl'', hlabels'.trans hlabels,
    hp.trans hp', hq⟩

/-- One step after another. -/
theorem Delivers.bind {R : β → Sketch → Prop} (h : Delivers c x σ Q)
    (hk : ∀ v σ', Q v σ' → Delivers c (k v) σ' R) : Delivers c (x >>= k) σ R :=
  delivers_bind (h.mono hk)

/-- One step after two. -/
theorem Delivers.andThen {γ : Type} {y : α → CompileM β} {k : β → CompileM γ}
    {Q : β → Sketch → Prop} {R : γ → Sketch → Prop} (h : Delivers c (x >>= y) σ Q)
    (hk : ∀ v σ', Q v σ' → Delivers c (k v) σ' R) : Delivers c (x >>= fun a => y a >>= k) σ R := by
  rw [← bind_assoc]
  exact h.bind hk

/-- What comes after keeps what was there. -/
theorem Delivers.precedes (h : Delivers c x σ Q) :
    Delivers c x σ fun v σ' => Q v σ' ∧ σ.Precedes σ' := by
  intro s hs hl
  obtain ⟨v, s', σ', hx, hs', hl', hlabels, hp, hq⟩ := h s hs hl
  exact ⟨v, s', σ', hx, hs', hl', hlabels, hp, hq, hp⟩

/-- What holds of every frame that is being compiled may be used. -/
theorem delivers_ready
    (h : σ.frame.Ready c.slots σ.loans → (σ.shape .fast).Covers (σ.loans.shape σ.frame) →
      Delivers c x σ Q) : Delivers c x σ Q :=
  fun s hs => h hs.asm.ready hs.asm.fast s hs

/-- Fewer registers may be assumed at the end of a stream. -/
theorem delivers_weaken (s : Stream) {P : Shape} (hP : (σ.shape s).Covers P)
    (hfast : s = .fast → P.Covers (σ.loans.shape σ.frame)) (h : Delivers c x (σ.weaken s P) Q) :
    Delivers c x σ Q := by
  intro t ht hl
  obtain ⟨v, t', σ', hx, ht', hl', hlabels, hp, hq⟩ := h t ⟨ht.asm.weaken hP hfast, ht.caches⟩ hl
  exact ⟨v, t', σ', hx, ht', hl', hlabels, ⟨hp.argCount, hp.localCount, hp.sites, hp.targets⟩, hq⟩

theorem delivers_read {k : Context → CompileM β} {Q : β → Sketch → Prop}
    (h : Delivers c (k c) σ Q) : Delivers c (read >>= k) σ Q :=
  h

theorem lift_run (x : AsmM α) (c : Context) (s : Compilation) :
    (liftM x : CompileM α) c s = match x s.asm with
      | .ok v a => .ok v { s with asm := a }
      | .error e a => .error e { s with asm := a } := by
  obtain ⟨asm, caches, queries, labels, lifecycle⟩ := s
  change (match x asm with
    | .ok v a => EStateM.Result.ok v (⟨a, caches, queries, labels, lifecycle⟩ : Compilation)
    | .error e a => .error e ⟨a, caches, queries, labels, lifecycle⟩) = _
  cases x asm <;> rfl

theorem lift_ok {x : AsmM α} {v : α} {a : Assembly} (h : x s.asm = .ok v a) :
    (liftM x : CompileM α) c s = .ok v { s with asm := a } := by
  rw [lift_run, h]

theorem liftM_bind (x : AsmM α) (k : α → AsmM β) :
    (liftM (x >>= k) : CompileM β) = liftM x >>= fun v => liftM (k v) := by
  funext c s
  rw [lift_run, AsmM.bind_run, bind_run, lift_run]
  cases x s.asm with
  | ok v a => exact (lift_run (k v) c { s with asm := a }).symm
  | error e a => rfl

theorem liftM_frame_bind (x : FrameM α) (k : α → FrameM β) :
    (liftM (x >>= k) : CompileM β) = liftM x >>= fun v => liftM (k v) := by
  change (liftM (liftM (x >>= k) : AsmM β) : CompileM β) = _
  rw [AsmM.liftM_bind, liftM_bind]
  rfl

/-- What an emitter into both streams delivers. -/
theorem delivers_asm {x : AsmM α} (h : AsmM.Delivers c.Jumps c.slots x σ Q) :
    Delivers c (liftM x) σ Q := by
  intro s hs hl
  obtain ⟨v, a, σ', hx, ha, hg, hq⟩ := h s.asm hs.asm
  exact ⟨v, { s with asm := a }, σ', lift_ok hx, ⟨ha, hs.caches.trans hg.caches.symm⟩, hl, rfl,
    hg.toPrecedes, hq⟩

/-- What a tracker operation delivers. -/
theorem delivers_frame {x : FrameM α} (h : AsmM.Delivers c.Jumps c.slots (liftM x) σ Q) :
    Delivers c (liftM x) σ Q :=
  delivers_asm h

/-- What an operation that emits nothing delivers. -/
theorem delivers_settles {x : FrameM α} {R : α → Frame → Loans → Prop} (hw : σ.waiting = false)
    (hx : Settles c.slots x σ.frame σ.loans (σ.shape .fast) R) :
    Delivers c (liftM x) σ fun v σ' => σ.Reframes σ' ∧ R v σ'.frame σ'.loans :=
  delivers_frame (AsmM.delivers_settles hw hx)

/-- What a change of the frame delivers. -/
theorem delivers_update {R : Unit → Frame → Loans → Prop} (hw : σ.waiting = false)
    (hx : Settles c.slots (update g) σ.frame σ.loans (σ.shape .fast) R) :
    Delivers c (liftM (AsmM.updateFrame g)) σ fun v σ' =>
      σ.Reframes σ' ∧ R v σ'.frame σ'.loans :=
  delivers_settles hw hx

theorem delivers_queryFrame {k : Frame → CompileM β} {Q : β → Sketch → Prop}
    (h : Delivers c (k σ.frame) σ Q) : Delivers c (liftM AsmM.frame >>= k) σ Q :=
  delivers_bind (delivers_asm (AsmM.frame_delivers h))

theorem delivers_queryTracker {k : Frame → CompileM β} {Q : β → Sketch → Prop}
    (h : Delivers c (k σ.frame) σ Q) : Delivers c (liftM frame >>= k) σ Q :=
  delivers_queryFrame h

theorem delivers_queryExits {k : Bool → CompileM β} {Q : β → Sketch → Prop}
    (h : Delivers c (k σ.waiting) σ Q) : Delivers c (liftM AsmM.hasExits >>= k) σ Q :=
  delivers_bind (delivers_asm (AsmM.hasExits_delivers h))

/-! ### The context -/

theorem pushedTypes_delivers {Q : TypeSet → Sketch → Prop} (h : ∀ types, Q types σ) :
    Delivers c pushedTypes σ Q :=
  delivers_read (delivers_pure (h _))

/-- The types of a new literal are known to be objects. -/
theorem stubTypes_delivers {Q : TypeSet → Sketch → Prop}
    (h : ∀ types, (stub ∈ [.newInit, .newObject, .newArray] → types.knownType = .object) →
      Q types σ) : Delivers c (stubTypes stub) σ Q := by
  refine delivers_bind (pushedTypes_delivers fun pushed => ?_)
  split
  · exact delivers_pure (h _ fun _ => rfl)
  · exact delivers_pure (h _ fun _ => rfl)
  · exact delivers_pure (h _ fun _ => rfl)
  · next h₁ h₂ h₃ _ => exact delivers_pure (h _ (by simp; tauto))
  · next h₁ h₂ h₃ _ =>
    dsimp only
    split <;> exact delivers_pure (h _ (by simp; tauto))

theorem jumpTarget_delivers {t : Nat} {Q : Nat → Sketch → Prop}
    (ht : c.function.jumpTarget? (c.pc + ahead) = some t) (h : Q t σ) :
    Delivers c (jumpTarget ahead) σ Q := by
  refine delivers_read ?_
  simp only [ht]
  exact delivers_pure h

/-- No jump lands on the instructions that may be compiled along. -/
theorem fusable?_delivers {Q : Option Instr → Sketch → Prop}
    (h : ∀ o : Option Instr, (∀ i, o = some i → c.function.code[c.pc + ahead]? = some i ∧
      ∀ k < ahead, c.flow.isJumpTarget (c.pc + k + 1) = false) → Q o σ) :
    Delivers c (fusable? ahead) σ Q := by
  refine delivers_read ?_
  split
  · exact delivers_pure (h _ nofun)
  · split
    · exact delivers_pure (h _ nofun)
    · next hany =>
      exact delivers_pure (h _ fun i hi => ⟨hi, by simpa using hany⟩)

theorem absorb_delivers {Q : Unit → Sketch → Prop} (h : Q () σ) : Delivers c (absorb n) σ Q := by
  refine delivers_read (delivers_asm ?_)
  refine AsmM.delivers_of_step _ σ (fun _ _ => rfl) (fun a ha => ⟨ha.ready, ha.fast, ?_, ha.typing⟩)
    (.refl σ) h
  obtain ⟨h₁, h₂, h₃, h₄, h₅, h₆, h₇, h₈, h₉, h₁₀, h₁₁, h₁₂, h₁₃⟩ := ha.books
  exact ⟨h₁, h₂, h₃, h₄, h₅, h₆, h₇, h₈, h₉, h₁₀, h₁₁, h₁₂, h₁₃⟩

theorem absorbIf_delivers {p : Prop} [Decidable p] {k : CompileM β} {Q : β → Sketch → Prop}
    (h : Delivers c k σ Q) : Delivers c (if p then (do absorb n; k) else k) σ Q := by
  split
  · exact delivers_bind (absorb_delivers h)
  · exact h

/-- A step that is only taken under a condition. -/
theorem delivers_when {p : Prop} [Decidable p] {x : CompileM Unit} {k : CompileM β}
    {R : Sketch → Prop} {Q : β → Sketch → Prop} (hx : p → Delivers c x σ fun _ σ' => R σ')
    (hn : ¬ p → R σ) (hk : ∀ σ', R σ' → Delivers c k σ' Q) :
    Delivers c (if p then (do x; k) else k) σ Q := by
  split
  · next h => exact (hx h).bind fun _ => hk
  · next h => exact hk σ (hn h)

/-! ### The lifecycle -/

theorem advance_run {next : Lifecycle} (h : s.lifecycle.canAdvance next) :
    advance next c s = .ok () { s with lifecycle := next } := by
  have hget : (getThe Compilation : CompileM Compilation) c s = .ok s s := rfl
  simp only [advance, bind_run, hget, h, if_true]
  rfl

/-- An operation that leaves nothing open can be closed. -/
theorem finishStep_run (hs : s.Typed c σ) (hl : s.lifecycle = .classified) (hw : σ.waiting = false)
    (hp : σ.pending = false) :
    finishStep emitted c s = .ok () { s with lifecycle := .rejoined } := by
  have hexits : AsmM.hasExits s.asm = .ok false s.asm := by
    rw [← hw, ← hs.asm.books.waiting]
    rfl
  have hend := AsmM.endOp_run hs.asm hw hp
  refine bind_ok (advance_run (by rw [hl]; cases emitted <;> rfl)) ?_
  refine bind_ok (lift_ok hexits) ?_
  refine bind_ok (advance_run (by cases emitted <;> rfl)) ?_
  refine bind_ok (lift_ok hend) ?_
  exact advance_run rfl

/-- With nothing on loan the frame passes its check. -/
theorem check_run (hs : s.Typed c σ) (hL : σ.loans = Loans.none) :
    (liftM FrameM.check : CompileM Unit) c s = .ok () s := by
  have hready : σ.frame.Ready c.slots Loans.none := hL ▸ hs.asm.ready
  have hcheck : FrameM.check ⟨s.asm.frame, s.asm.buffer.fast⟩ =
      .ok () ⟨s.asm.frame, s.asm.buffer.fast⟩ := by
    rw [hs.asm.books.frame]
    simp only [FrameM.check, FrameM.bind_run, FrameM.frame_run, hready.fault?_eq_none]
    rfl
  exact lift_ok (c := c) (AsmM.lift_ok hcheck)

/-- A part of an operation that leaves nothing open can be closed. -/
theorem nextStep_delivers {Q : Unit → Sketch → Prop} (hσ : σ.Clean) (h : Q () σ) :
    Delivers c (nextStep emitted) σ Q := by
  intro s hs hl
  refine ⟨(), s, σ, ?_, hs, hl, rfl, .refl σ, h⟩
  refine bind_ok (finishStep_run hs hl hσ.waiting hσ.pending) ?_
  refine bind_ok (check_run ⟨hs.asm, hs.caches⟩ hσ.loans) ?_
  rw [advance_run rfl, ← hl]

theorem peek_lt (hpos : 0 < n) (hn : σ.frame.stackBase + n ≤ σ.frame.sp) :
    σ.frame.peek n < σ.frame.sp := by
  simp only [Frame.peek]
  lia

/-! ### Stub calls -/

theorem callInline_delivers (h : Shape.result.Covers (σ.loans.shape σ.frame)) :
    Delivers c (liftM (AsmM.callInline stub arg)) σ fun _ σ' => σ' = σ.call .fast :=
  delivers_asm (AsmM.emitCall_delivers (fun _ => h) rfl)

/-- A stub call in line, up to the point where its operands are off the stack. -/
theorem stubCall_delivers {n : Nat} {k : CompileM Emitted} {Q : Emitted → Sketch → Prop}
    (hσ : σ.Clean) (hn : σ.frame.stackBase + n ≤ σ.frame.sp)
    (hk : ∀ σ₂ : Sketch, σ₂.shape .slow = Shape.all → σ₂.opens = [] → σ₂.waiting = false →
      σ₂.loans = Loans.none → σ₂.frame.sp = σ.frame.sp - n → Delivers c k σ₂ Q) :
    Delivers c (do
      syncAndKill
      let _ ← AsmM.callInline stub arg
      AsmM.updateFrame (Frame.popN n)
      k) σ Q := by
  refine (delivers_frame (AsmM.syncAndKill_delivers hσ.waiting hσ.loans)).bind ?_
  rintro - σ₁ ⟨hr₁, hf₁, hL₁⟩
  have hq₁ := hr₁.quiet hσ.toQuiet
  refine (callInline_delivers (by rw [hf₁, hL₁]; exact Frame.covers_killed _ _)).bind ?_
  rintro - _ rfl
  have hw₁ : (σ₁.call .fast).waiting = false := hq₁.waiting
  refine (delivers_update hw₁ (popN_settles ?_)).bind ?_
  · rw [show (σ₁.call .fast).frame = σ₁.frame from rfl, hf₁]
    exact hn
  rintro - σ₂ ⟨hr₂, hf₂, hL₂⟩
  refine hk σ₂ ?_ (hr₂.opens.trans hq₁.opens) (hr₂.waiting.trans hq₁.waiting) (hL₂.trans hL₁) ?_
  · rw [hr₂.shape]
    simpa [Sketch.call, Sketch.append] using hq₁.slow
  · rw [hf₂, Frame.sp_popN]
    change σ₁.frame.sp - _ = _
    rw [hf₁]
    rfl

/-- Calling a stub in place of inline code. -/
theorem emitStubTyped_delivers (stub : Stub) {types : TypeSet} (hσ : σ.Clean)
    (hn : σ.frame.stackBase + stub.uses ≤ σ.frame.sp) :
    Delivers c (emitStubTyped stub arg types) σ fun _ σ' => σ'.Clean ∧
      σ'.frame.sp = σ.frame.sp - stub.uses + stub.defs ∧
      (stub.defs ≠ 0 → ∃ f : Frame, σ'.frame = f.pushSynced types) := by
  refine stubCall_delivers hσ hn fun σ₂ hslow ho hw hL₂ hsp₂ => ?_
  have hclean : ∀ σ₃, σ₂.Reframes σ₃ → σ₃.loans = Loans.none →
      Delivers c (do AsmM.rejoinInline stub.defs; return Emitted.generic) σ₃ fun _ σ' =>
        σ'.Clean ∧ σ'.frame = σ₃.frame := by
    intro σ₃ hr₃ hL₃
    exact (delivers_asm (AsmM.rejoinInline_delivers (hr₃.shape ▸ hslow) (hr₃.opens.trans ho)
      (hr₃.waiting.trans hw) hL₃)).bind fun _ _ h => delivers_pure h
  dsimp only
  split
  · next hdefs =>
    refine (hclean σ₂ (.refl σ₂) hL₂).mono ?_
    rintro - σ' ⟨hσ', hf⟩
    exact ⟨hσ', by rw [hf, hsp₂, hdefs]; rfl, fun h => absurd hdefs h⟩
  · next hdefs =>
    refine (delivers_update hw (pushSynced_settles types)).bind ?_
    rintro - σ₃ ⟨hr₃, hf₃, hL₃⟩
    refine (hclean σ₃ hr₃ (hL₃.trans hL₂)).mono ?_
    rintro - σ' ⟨hσ', hf⟩
    refine ⟨hσ', ?_, fun _ => ⟨σ₂.frame, hf.trans hf₃⟩⟩
    have hone : stub.defs = 1 := by cases stub <;> first | rfl | exact absurd rfl hdefs
    rw [hf, hf₃, hone, ← hsp₂]
    rfl

theorem emitStub_delivers (stub : Stub) (hσ : σ.Clean)
    (hn : σ.frame.stackBase + stub.uses ≤ σ.frame.sp) :
    Delivers c (emitStub stub arg) σ fun _ σ' => σ'.Clean ∧
      σ'.frame.sp = σ.frame.sp - stub.uses + stub.defs :=
  delivers_bind (stubTypes_delivers fun _ _ =>
    (emitStubTyped_delivers stub hσ hn).mono fun _ _ h => ⟨h.1, h.2.1⟩)

/-! ### Changes of the frame -/

/-- A change that leaves the loans alone. -/
theorem change_delivers (hσ : σ.Clean)
    (hx : Settles c.slots (update g) σ.frame σ.loans (σ.shape .fast)
      fun _ f' L' => f' = g σ.frame ∧ L' = σ.loans) :
    Delivers c (liftM (AsmM.updateFrame g)) σ fun _ σ' => σ'.Clean ∧ σ'.frame = g σ.frame ∧
      σ'.frame.stackBase = σ.frame.stackBase :=
  (delivers_update hσ.waiting hx).mono fun _ _ h =>
    ⟨⟨h.1.quiet hσ.toQuiet, h.2.2.trans hσ.loans⟩, h.2.1, h.1.base⟩

/-- Replacing the operands by a constant. -/
theorem replaceByConstant_delivers {v : Value} (hσ : σ.Clean)
    (hn : σ.frame.stackBase + n ≤ σ.frame.sp) (hv : v.tag ≠ .object) :
    Delivers c (liftM (replaceByConstant n v)) σ fun _ σ' => σ'.Clean ∧
      σ'.frame.sp = σ.frame.sp - n + 1 := by
  refine (change_delivers hσ (settles_update_comp (popN_settles hn)
    (pushConstant_settles hv))).mono ?_
  rintro - σ' ⟨hσ', hf, -⟩
  refine ⟨hσ', ?_⟩
  rw [hf, ← Frame.sp_popN]
  rfl

end CompileM

end FastPath
