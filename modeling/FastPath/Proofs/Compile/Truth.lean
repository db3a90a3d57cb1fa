import FastPath.Proofs.Compile.Routing

/-!
# What negation and the conditional jumps deliver

Each succeeds on every frame that has an operand. A conditional jump leads to bytecode
instructions that are jumped to; where its slow path goes on with what follows, both streams
meet in a frame that has no registers.
-/

namespace FastPath

open FrameM AsmM

variable {f : Frame}

/-- A slot of unknown type is no constant. -/
theorem Frame.Ready.constant?_of_unknown {D : Nat} {L : Loans} {s : Slot} (h : f.Ready D L)
    (hs : s < f.sp) (ht : f.knownType s = .unknown) : f.constant? s = none :=
  (h.tracks_model h.room).constant?_of_unknown (Frame.live_of_lt hs) ht

/-- Forgetting what is known about the stack does not change its height. -/
theorem Frame.sp_forget (h : f.stackBase ≤ f.sp) :
    ((f.mapLive Entry.synced).reset f.depth).sp = f.sp := by
  change f.stackBase + (f.sp - f.stackBase) = f.sp
  exact Nat.add_sub_cancel' h

namespace CompileM

variable {β : Type} {c : Context} {σ : Sketch} {f : Frame} {L : Loans} {P : Shape} {s : Slot}
  {b n : Nat}

/-! ### Tests that make a boolean -/

variable {Q : β → Sketch → Prop} {res : Reg} {heap : Heap} {onTrue : Bool} {t : Nat}
  {kind : BranchKind}

/-- A register that is pinned and another one for the outcome. -/
theorem pinned_delivers {x : FrameM Reg} {k : Reg → List Reg → Reg → CompileM β}
    (hx : Delivers c (liftM x) σ fun r σ' => σ'.Lent f Loans.none ∧ σ'.frame.bound.reg r)
    (hk : ∀ r pins res σ' P, σ'.Lent f ((Loans.none.addPins pins).addTemp res) →
      σ'.Routing σ'.frame ((Loans.none.addPins pins).addTemp res) P Shape.all [] [] [] false false →
      pins = [r] → P.reg r → res.Valid → Delivers c (k r pins res) σ' Q) :
    Delivers c (do
      let r ← x
      let pins ← pin r
      let res ← alloc
      k r pins res) σ Q := by
  refine hx.bind ?_
  rintro r σ₁ ⟨h₁, hr⟩
  refine (pin_delivers h₁ hr).bind ?_
  rintro pins σ₂ ⟨h₂, hpins, hmem⟩
  refine (alloc_delivers h₂ ?_).bind ?_
  · rw [Loans.count_addPins]
    change 0 + _ < 8
    omega
  rintro res σ₃ ⟨h₃, hres, -⟩
  have hpinned : pins = [r] := by
    obtain _ | ⟨q, _ | _⟩ := pins <;> simp_all [Loans.addPins, Loans.none]
  exact delivers_routed h₃ fun hroute =>
    hk r pins res σ₃ _ h₃ hroute hpinned (Loans.shape_pin _ hmem) hres

/-- A boolean in the only register that is on loan takes the place of the operands. -/
theorem boolean_delivers {k : Nat} {v : β} (h : σ.Releasing false b n L P)
    (hL : L.dropTemp res = Loans.none) (hk : b + k ≤ n) (hr : res ∈ L.temps) (hP : P.reg res) :
    Delivers c (do
      replaceByBoolean k res
      return v) σ fun w σ' => w = v ∧ σ'.Clean ∧ σ'.frame.sp = n - k + 1 := by
  refine (replaceByBoolean_delivers h hk hr hP).bind fun _ σ₁ h₁ => ?_
  rw [hL] at h₁
  exact delivers_pure ⟨rfl, h₁.clean, h₁.sp⟩

theorem release_pinned (pins : List Reg) (res : Reg) :
    (((Loans.none.addPins pins).addTemp res).dropPins pins).dropTemp res = Loans.none := by
  simp [Loans.none, Loans.addPins, Loans.addTemp, Loans.dropPins, Loans.dropTemp]

/-- The outcome takes the place of the operands. -/
theorem outcome_delivers {pins : List Reg} {k : Nat} {v : β}
    (h : σ.Releasing false b n ((Loans.none.addPins pins).addTemp res) P) (hk : b + k ≤ n)
    (hP : P.reg res) :
    Delivers c (do
      unpinAll pins
      replaceByBoolean k res
      return v) σ fun w σ' => w = v ∧ σ'.Clean ∧ σ'.frame.sp = n - k + 1 := by
  refine (unpinAll_delivers pins h).bind fun _ σ₁ h₁ => ?_
  exact boolean_delivers h₁ (release_pinned pins res) hk List.mem_cons_self hP

/-! ### Negation -/

/-- Negating a value of unknown type. -/
theorem notUnknown_delivers {x : Slot} (hσ : σ.Clean) (hn : σ.frame.stackBase < σ.frame.sp)
    (hx : x < σ.frame.sp) (ht : σ.frame.knownType x = .unknown) :
    Delivers c (notUnknown x) σ fun _ σ' => σ'.Clean ∧ σ'.frame.sp = σ.frame.sp := by
  refine delivers_ready fun hready _ => ?_
  refine pinned_delivers (dataReg_delivers hσ.lent (by decide) hx
    (hready.constant?_of_unknown hx ht)
      (by simp [ht])) fun payload pins res σ₁ P h₁ hr₁ _ hpay hres => ?_
  have hv := h₁.view
  refine (delivers_asm (hr₁.tagOperand (hv.sp ▸ hx) ((hv.knownType x).trans ht))).bind ?_
  rintro tag σ₂ ⟨h₂, htag⟩
  have htag := htag.mono (Nat.le_refl _) hr₁.bound
  refine (delivers_asm (h₂.branch_fast ?_)).bind fun notBool σ₃ h₃ => ?_
  · exact ⟨htag, trivial⟩
  refine (delivers_asm (h₃.emit_fast rfl rfl ?_)).bind fun _ σ₄ h₄ => ?_
  · exact ⟨hpay, hres⟩
  refine (delivers_asm (h₄.emit_fast rfl rfl ?_)).bind fun _ σ₅ h₅ => ?_
  · exact ⟨⟨.inl rfl, trivial⟩, hres⟩
  refine (delivers_asm (h₅.label_fast (P.withReg res) (Shape.withReg_covers _ _)
    ((P.withReg_covers res).trans hr₁.lent))).bind fun done σ₆ h₆ => ?_
  refine (delivers_asm (h₆.label_slow P (Shape.all_covers P))).bind fun start σ₇ h₇ => ?_
  refine (delivers_asm (h₇.link (.refl _) (.head _) (.head _) (.refl _))).bind fun _ σ₈ h₈ => ?_
  refine (delivers_asm (h₈.branch_slow ?_)).bind fun notInt σ₉ h₉ => ?_
  · exact ⟨htag, trivial⟩
  refine (delivers_asm (h₉.emit_slow rfl rfl ?_)).bind fun _ σ₁₀ h₁₀ => ?_
  · exact ⟨⟨hpay, trivial⟩, hres⟩
  refine (delivers_asm (h₁₀.branch_slow ?_)).bind fun intBack σ₁₁ h₁₁ => ?_
  · trivial
  refine (delivers_asm (h₁₁.label_slow P (Shape.all_covers P))).bind fun next σ₁₂ h₁₂ => ?_
  refine (delivers_asm (h₁₂.link (.swap _ _ _) (.tail _ (.head _)) (.head _) (.refl _))).bind
    fun _ σ₁₃ h₁₃ => ?_
  refine (delivers_asm (h₁₃.branch_slow ?_)).bind fun notObject σ₁₄ h₁₄ => ?_
  · exact ⟨htag, trivial⟩
  refine (delivers_asm (h₁₄.emit_slow rfl rfl ?_)).bind fun _ σ₁₅ h₁₅ => ?_
  · exact ⟨trivial, hres⟩
  refine (delivers_asm (h₁₅.branch_slow ?_)).bind fun objectBack σ₁₆ h₁₆ => ?_
  · trivial
  refine (delivers_asm (h₁₆.link (.trans (.cons _ (.swap _ _ _)) (.swap _ _ _))
    (.tail _ (.tail _ (.head _))) (.tail _ (.tail _ (.head _))) (.refl _))).bind
    fun _ σ₁₇ h₁₇ => ?_
  refine (delivers_asm (h₁₇.link (.refl _) (.head _) (.tail _ (.tail _ (.head _))) (.refl _))).bind
    fun _ σ₁₈ h₁₈ => ?_
  refine (delivers_asm (h₁₈.linkExit (.refl _) (.tail _ (.head _)) hr₁.bound)).bind
    fun _ σ₁₉ h₁₉ => ?_
  refine (slowCall_delivers h₁₉.armed).bind fun _ σ₂₀ h₂₀ => ?_
  refine (unpinAll_delivers pins h₂₀).bind fun _ σ₂₁ h₂₁ => ?_
  refine (replaceByBoolean_delivers h₂₁ (by rw [h₁.base, h₁.sp]; exact hn) List.mem_cons_self
    (.inl rfl)).bind fun _ σ₂₂ h₂₂ => ?_
  rw [release_pinned] at h₂₂
  exact (rejoin_delivers h₂₂).bind fun _ _ h => delivers_pure
    (by rw [h₁.sp, Nat.sub_add_cancel (Nat.one_le_of_lt hn)] at h; exact h)

/-- Only a string may be a constant whose truth value is not known. -/
theorem constant?_of_truth (hready : f.Ready c.slots L) (hs : s < f.sp)
    (h : (f.constant? s).bind (fun v => (heap.toBoolean v).toOption) = none)
    (ht : f.knownType s ≠ .string) : f.constant? s = none := by
  cases hc : f.constant? s with
  | none => rfl
  | some v =>
    rw [hready.knownType_of_constant hs hc] at ht
    cases v <;> simp_all [Heap.toBoolean, Except.toOption, KnownType.ofValue]

/-- A negation replaces its operand. -/
theorem not_delivers (hσ : σ.Clean) (hn : σ.frame.stackBase < σ.frame.sp) :
    Delivers c CompileM.not σ fun _ σ' => σ'.Clean ∧ σ'.frame.sp = σ.frame.sp := by
  have hsp : σ.frame.sp - 1 + 1 = σ.frame.sp := Nat.sub_add_cancel (Nat.one_le_of_lt hn)
  have hx := peek_lt (n := 1) (by decide) hn
  refine delivers_ready fun hready _ => delivers_queryFrame (delivers_read ?_)
  dsimp only
  split
  · exact (replaceByConstant_delivers hσ hn
      (by simp [Value.tag])).bind fun _ _ h => delivers_pure (hsp ▸ h)
  next hc =>
  have hnone := constant?_of_truth hready hx hc
  split
  · next ht =>
    refine (copyData_delivers hσ.lent (by decide) hx (by simp [ht])).bind ?_
    rintro res σ₁ ⟨h₁, hres, -⟩
    refine delivers_routed h₁ fun hr₁ => ?_
    refine (delivers_asm (hr₁.emit_fast rfl rfl ?_)).bind fun _ σ₂ h₂ => ?_
    · exact ⟨⟨Loans.shape_full _ List.mem_cons_self, trivial⟩, hres⟩
    refine (boolean_delivers h₂.releasing (by simp [Loans.none, Loans.addFull, Loans.dropTemp])
      (by rw [h₁.base, h₁.sp]; exact hn) List.mem_cons_self (.inl rfl)).mono ?_
    rintro v σ' ⟨-, hσ', hsp'⟩
    exact ⟨hσ', by rw [hsp', h₁.sp, hsp]⟩
  · next ht =>
    refine pinned_delivers (dataReg_delivers hσ.lent (by decide) hx (hnone (by simp [ht]))
      (by simp [ht])) fun src pins res σ₁ P h₁ hr₁ _ hsrc hres => ?_
    refine (delivers_asm (hr₁.emit_fast rfl rfl ?_)).bind fun _ σ₂ h₂ => ?_
    · exact ⟨⟨hsrc, trivial⟩, hres⟩
    refine (outcome_delivers h₂.releasing (by rw [h₁.base, h₁.sp]; exact hn) (.inl rfl)).mono ?_
    rintro v σ' ⟨-, hσ', hsp'⟩
    exact ⟨hσ', by rw [hsp', h₁.sp, hsp]⟩
  · next ht =>
    refine (doubleReg_delivers hσ.lent (by decide) hx (hnone (by simp [ht])) ht).bind ?_
    rintro src σ₁ ⟨h₁, hsrc⟩
    refine (alloc_keeps_doubles h₁ (by decide)).bind ?_
    rintro res σ₂ ⟨⟨h₂, hres, -⟩, hkeep⟩
    refine delivers_routed h₂ fun hr₂ => ?_
    refine (delivers_asm (hr₂.emit_fast rfl rfl ?_)).bind fun _ σ₃ h₃ => ?_
    · exact FReg.scratch_valid
    refine (delivers_asm (h₃.emit_fast rfl rfl ?_)).bind fun _ σ₄ h₄ => ?_
    · exact ⟨⟨.inr (hr₂.bound.freg _ (hkeep src hsrc)), .inl rfl⟩, hres⟩
    refine (boolean_delivers h₄.releasing (by simp [Loans.none, Loans.addTemp, Loans.dropTemp])
      (by rw [h₂.base, h₂.sp]; exact hn) List.mem_cons_self (.inl rfl)).mono ?_
    rintro v σ' ⟨-, hσ', hsp'⟩
    exact ⟨hσ', by rw [hsp', h₂.sp, hsp]⟩
  · exact (replaceByConstant_delivers hσ hn
      (by simp [Value.tag])).bind fun _ _ h => delivers_pure (hsp ▸ h)
  · next ht => exact notUnknown_delivers hσ hn hx ht
  all_goals exact (emitStub_delivers .not hσ hn).mono fun _ _ h => hsp ▸ h

/-! ### Conditional jumps -/

/-- Branching on the answer of a stub. -/
theorem branchGeneric_delivers (hσ : σ.Clean) (hn : σ.frame.stackBase < σ.frame.sp)
    (ht : c.Jumps t) :
    Delivers c (branchGeneric onTrue t) σ fun _ σ' => σ'.Clean ∧
      σ'.frame.sp = σ.frame.sp - 1 := by
  refine delivers_routed hσ.lent fun hr => ?_
  refine (delivers_frame hr.syncAndKill).bind fun _ σ₁ h₁ => ?_
  refine (delivers_asm (h₁.call_fast (Frame.covers_killed _ _))).bind fun _ σ₂ h₂ => ?_
  refine (delivers_asm (h₂.jump_fast ?_ ht)).bind fun _ σ₃ h₃ => ?_
  · exact ⟨rfl, trivial⟩
  refine (delivers_asm (h₃.update (pop_settles hn))).bind ?_
  rintro - σ₄ ⟨_, _, h₄, rfl, rfl⟩
  refine (delivers_asm (rejoinInline_delivers ?_ ?_ h₄.waiting h₄.loans)).bind ?_
  · exact Shape.eq_all h₄.slow
  · exact h₄.opens.eq_nil
  rintro - σ₅ ⟨hσ₅, hf₅⟩
  exact delivers_pure ⟨hσ₅, by rw [hf₅, h₄.frame]; rfl⟩

/-- An unconditional jump. Nothing reaches what follows. -/
theorem leap_delivers {k : CompileM β} (hσ : σ.Clean) (ht : c.Jumps t)
    (hk : ∀ σ', σ'.Clean → σ'.frame = σ.frame.mapLive Entry.synced →
      σ'.shape .fast = Shape.all → Delivers c k σ' Q) :
    Delivers c (do
      syncAll
      linkPc (← branch .fast .always) t
      k) σ Q := by
  refine delivers_routed hσ.lent fun hr => ?_
  refine (delivers_frame hr.syncAll).bind fun _ σ₁ h₁ => ?_
  refine (jump_delivers h₁ ?_ ht).andThen fun _ σ₂ h₂ =>
    hk σ₂ h₂.clean h₂.frame (Shape.eq_all h₂.fast)
  trivial

/-- A condition whose truth is known decides the branch. -/
theorem branchKnown_delivers {truthy : Bool} (hσ : σ.Clean) (hn : σ.frame.stackBase < σ.frame.sp)
    (ht : c.Jumps t) :
    Delivers c (branchKnown kind truthy t) σ fun _ σ' => σ'.Clean ∧
      σ'.frame.sp = σ.frame.sp - 1 := by
  -- the value is dropped before or after the jump
  have hleap : ∀ (σ₁ : Sketch) (k : CompileM Emitted), σ₁.Clean →
      (∀ σ₂, σ₂.Clean → σ₂.frame.sp = σ₁.frame.sp → σ₂.frame.stackBase = σ₁.frame.stackBase →
        Delivers c k σ₂ fun _ σ' => σ'.Clean ∧ σ'.frame.sp = σ.frame.sp - 1) →
      Delivers c (if truthy = kind.jumpsOn then (do
        syncAll
        linkPc (← branch .fast .always) t
        k) else k) σ₁ fun _ σ' => σ'.Clean ∧ σ'.frame.sp = σ.frame.sp - 1 := by
    intro σ₁ k hσ₁ hk
    split
    · exact leap_delivers hσ₁ ht fun σ₂ hσ₂ hf₂ _ => hk σ₂ hσ₂ (by rw [hf₂]; rfl) (by rw [hf₂]; rfl)
    · exact hk σ₁ hσ₁ rfl rfl
  unfold branchKnown
  cases kind.keepsValue with
  | false =>
    refine (change_delivers hσ (pop_settles hn)).bind ?_
    rintro - σ₁ ⟨hσ₁, hf₁, hb₁⟩
    refine hleap σ₁ _ hσ₁ fun σ₂ hσ₂ hsp₂ _ => ?_
    exact delivers_pure ⟨hσ₂, by rw [hsp₂, hf₁]; rfl⟩
  | true =>
    refine hleap σ _ hσ fun σ₂ hσ₂ hsp₂ hb₂ => ?_
    refine (change_delivers hσ₂ (pop_settles (by rw [hb₂, hsp₂]; exact hn))).bind ?_
    rintro - σ₃ ⟨hσ₃, hf₃, -⟩
    exact delivers_pure ⟨hσ₃, by rw [hf₃, ← hsp₂]; rfl⟩

/-- Branching on a value of unknown type. -/
theorem branchUnknown_delivers {x : Slot} (hσ : σ.Clean) (hn : σ.frame.stackBase < σ.frame.sp)
    (hx : x < σ.frame.sp) (hk : σ.frame.knownType x = .unknown) (ht : c.Jumps t) :
    Delivers c (branchUnknown x onTrue t) σ fun _ σ' => σ'.Clean ∧
      σ'.frame.sp = σ.frame.sp - 1 := by
  refine delivers_ready fun hready _ => ?_
  refine (dataReg_delivers hσ.lent (by decide) hx (hready.constant?_of_unknown hx hk)
    (by simp [hk])).bind ?_
  rintro payload σ₁ ⟨h₁, hpay⟩
  have hv := h₁.view
  refine delivers_routed h₁ fun hr₁ => ?_
  have hpay := hr₁.bound.reg _ hpay
  refine (delivers_asm (hr₁.tagOperand (hv.sp ▸ hx) ((hv.knownType x).trans hk))).bind ?_
  rintro tag σ₂ ⟨h₂, htag⟩
  have htag := htag.mono (Nat.le_refl _) hr₁.bound
  generalize Loans.none.shape σ₁.frame = P at *
  refine (delivers_frame h₂.syncAll).bind fun _ σ₃ h₃ => ?_
  refine (delivers_asm (h₃.branch_fast ?_)).bind fun notBool σ₄ h₄ => ?_
  · exact ⟨htag, trivial⟩
  refine (jump_delivers h₄ ?_ ht).andThen fun _ σ₅ h₅ => ?_
  · exact ⟨hpay, trivial⟩
  refine (delivers_asm (h₅.label_slow P (Shape.all_covers P))).bind fun start σ₆ h₆ => ?_
  refine (delivers_asm (h₆.link (.refl _) (.head _) (.head _) (.refl P))).bind fun _ σ₇ h₇ => ?_
  refine (delivers_asm (h₇.branch_slow ?_)).bind fun notInt σ₈ h₈ => ?_
  · exact ⟨htag, trivial⟩
  refine (jump_slow_delivers h₈ ?_ ht).andThen fun _ σ₉ h₉ => ?_
  · exact ⟨hpay, trivial⟩
  refine (delivers_asm (h₉.branch_slow ?_)).bind fun intFall σ₁₀ h₁₀ => ?_
  · trivial
  refine (delivers_asm (h₁₀.label_slow P (Shape.all_covers P))).bind fun next σ₁₁ h₁₁ => ?_
  refine (delivers_asm (h₁₁.link (.swap _ _ _) (.tail _ (.head _)) (.head _) (.refl P))).bind
    fun _ σ₁₂ h₁₂ => ?_
  refine (delivers_asm h₁₂.call_slow).bind fun _ σ₁₃ h₁₃ => ?_
  refine (delivers_asm (h₁₃.jump_slow ?_ ht)).bind fun _ σ₁₄ h₁₄ => ?_
  · exact ⟨rfl, trivial⟩
  refine (delivers_asm (h₁₄.branch_slow ?_)).bind fun callFall σ₁₅ h₁₅ => ?_
  · trivial
  refine (delivers_asm (h₁₅.update (pop_settles ?_))).bind ?_
  · change σ₁.frame.stackBase < σ₁.frame.sp
    rw [h₁.base, h₁.sp]
    exact hn
  rintro - σ₁₆ ⟨_, _, h₁₆, rfl, rfl⟩
  refine (delivers_frame h₁₆.syncAndForget).bind fun _ σ₁₇ h₁₇ => ?_
  -- both slow paths arrive without registers
  refine (delivers_asm (h₁₇.linkRejoin (.swap _ _ _) (.tail _ (.head _)))).bind fun _ σ₁₈ h₁₈ => ?_
  refine (delivers_asm (h₁₈.linkRejoin (.refl _) (.head _))).bind fun _ σ₁₉ h₁₉ => ?_
  refine delivers_ready fun hready₁₉ _ => delivers_queryFrame ?_
  refine (delivers_asm (h₁₉.complete (h₁₉.frame ▸ hready₁₉.room))).bind fun _ σ₂₀ h₂₀ => ?_
  refine delivers_pure ⟨h₂₀.clean, ?_⟩
  rw [h₂₀.frame, Frame.sp_forget]
  · change σ₁.frame.sp - 1 = _
    rw [h₁.sp]
  · change σ₁.frame.stackBase ≤ σ₁.frame.sp - 1
    rw [h₁.base, h₁.sp]
    exact Nat.le_sub_one_of_lt hn

/-- A branch on a register, after which the value is dropped. -/
theorem branchPop_delivers {P : Shape} {g : Guard} (hn : f.stackBase < f.sp)
    (h : σ.Routing f Loans.none P Shape.all [] [] [] false false) (hg : g.Reads (f.limit c.slots) P)
    (ht : c.Jumps t) :
    Delivers c (do
      linkPc (← branch .fast g) t
      updateFrame Frame.pop
      return Emitted.inline) σ fun _ σ' => σ'.Clean ∧ σ'.frame.sp = f.sp - 1 := by
  refine (jump_delivers h hg ht).andThen fun _ σ₁ h₁ => ?_
  refine (delivers_asm (h₁.update (pop_settles hn))).bind ?_
  rintro - σ₂ ⟨_, _, h₂, rfl, rfl⟩
  exact delivers_pure ⟨h₂.clean, by rw [h₂.frame]; rfl⟩

theorem constant?_of_knownTruth (hready : f.Ready c.slots L) (hs : s < f.sp)
    (h : knownTruth? heap f s = none) (ht : f.knownType s ≠ .string) : f.constant? s = none := by
  have hnone : (f.constant? s).bind (fun v => (heap.toBoolean v).toOption) = none := by
    unfold knownTruth? at h
    cases hc : f.constant? s with
    | none => rfl
    | some v => simpa [hc] using h
  exact constant?_of_truth hready hs hnone ht

/-- A branch consumes its condition. -/
theorem branchOn_delivers (hσ : σ.Clean) (hn : σ.frame.stackBase < σ.frame.sp)
    (htarget : c.function.jumpTarget? c.pc = some t) (ht : c.Jumps t) :
    Delivers c (branchOn kind) σ fun _ σ' => σ'.Clean ∧ σ'.frame.sp = σ.frame.sp - 1 := by
  have hx := peek_lt (n := 1) (by decide) hn
  have hbase : ∀ σ₁ : Sketch, σ₁.Lent σ.frame Loans.none →
      (σ₁.frame.mapLive Entry.synced).stackBase < (σ₁.frame.mapLive Entry.synced).sp := by
    intro σ₁ h₁
    change σ₁.frame.stackBase < σ₁.frame.sp
    rw [h₁.base, h₁.sp]
    exact hn
  refine delivers_ready fun hready _ => delivers_bind (jumpTarget_delivers htarget ?_)
  refine delivers_read ?_
  dsimp only
  split
  · exact branchGeneric_delivers hσ hn ht
  refine delivers_queryFrame ?_
  split
  · exact branchKnown_delivers hσ hn ht
  case h_2 hknown hk | h_3 hknown hk =>
    have hnone := constant?_of_knownTruth hready hx hknown (by simp [hk])
    refine (dataReg_delivers hσ.lent (by decide) hx hnone (by simp [hk])).bind ?_
    rintro r σ₁ ⟨h₁, hr⟩
    refine delivers_routed h₁ fun hr₁ => (delivers_frame hr₁.syncAll).bind fun _ σ₂ h₂ => ?_
    refine (branchPop_delivers (hbase σ₁ h₁) h₂ ?_ ht).mono fun _ _ h => h₁.sp ▸ h
    exact ⟨hr₁.bound.reg _ hr, trivial⟩
  · next hknown hk =>
    have hnone := constant?_of_knownTruth hready hx hknown (by simp [hk])
    refine (doubleReg_delivers hσ.lent (by decide) hx hnone hk).bind ?_
    rintro r σ₁ ⟨h₁, hr⟩
    refine delivers_routed h₁ fun hr₁ => (delivers_frame hr₁.syncAll).bind fun _ σ₂ h₂ => ?_
    refine (delivers_asm (h₂.emit_fast rfl rfl ?_)).bind fun _ σ₃ h₃ => ?_
    · exact FReg.scratch_valid
    refine (branchPop_delivers (hbase σ₁ h₁) h₃ ?_ ht).mono fun _ _ h => h₁.sp ▸ h
    exact ⟨.inr (hr₁.bound.freg _ hr), .inl rfl⟩
  · next hk => exact branchUnknown_delivers hσ hn hx hk ht
  · exact branchGeneric_delivers hσ hn ht

end CompileM

end FastPath
