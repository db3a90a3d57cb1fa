import FastPath.Proofs.Compile.Truth

/-!
# What the comparisons deliver

A `typeof` and a comparison may be compiled along with what follows. Each succeeds on every
frame that has its operands, and accounts for all the instructions that it takes.
-/

namespace FastPath

open FrameM Bytecode

variable {L : Loans} {P : Shape}

/-- Giving back several double temporaries. -/
theorem FrameM.freeDoubles_settles {D : Nat} {f : Frame} {rs : List FReg} (hnodup : rs.Nodup)
    (hrs : rs ⊆ L.ftemps) :
    Settles D (CompileM.freeDoubles rs) f L P fun _ f' L' =>
      L' = L.dropFTemps rs ∧ f.SameView f' := by
  induction rs generalizing f L with
  | nil => exact settles_pure ⟨by simp [Loans.dropFTemps], .refl f⟩
  | cons r rs ih =>
    obtain ⟨hr, hnodup⟩ := List.nodup_cons.1 hnodup
    obtain ⟨hmem, hrs⟩ := List.cons_subset.1 hrs
    refine settles_bind ((freeDouble_settles hmem).mono ?_)
    rintro - f₁ L₁ ⟨rfl, hv⟩
    refine (ih hnodup fun q hq => List.mem_filter.2 ⟨hrs hq, ?_⟩).mono ?_
    · simpa using fun h : q = r => hr (h ▸ hq)
    rintro - f₂ L₂ ⟨rfl, hv'⟩
    refine ⟨?_, hv.trans hv'⟩
    simp [Loans.dropFTemps, Loans.dropFTemp, List.filter_filter, Bool.and_comm]

/-- The operands are in registers that have contents, or constants. -/
def CompareOperands.Reads (P : Shape) : CompareOperands → Prop
  | int _ lhs rhs => P.reg lhs ∧ ∀ n, rhs.Reads n P
  | double lhs rhs => P.freg lhs ∧ P.freg rhs

/-- A branch on the comparison reads its operands. -/
theorem CompareOperands.Reads.guard {o : CompareOperands} (h : o.Reads P) (op : CompareOp)
    (onTrue : Bool) (n : Nat) : (CompileM.fusedGuard op o onTrue).Reads n P := by
  cases o with
  | int cond lhs rhs => exact ⟨h.1, h.2 n⟩
  | double lhs rhs => exact h

/-- What a comparison has on loan: a register for the outcome, pins, and temporaries for
doubles. -/
structure Loans.Compares (L : Loans) (res : Option Reg) (rs : List Reg) (ds : List FReg) :
    Prop where
  temps : L.temps = res.toList
  full : L.full = []
  pins : L.pins ⊆ rs
  ftemps : ∀ r, r ∈ L.ftemps ↔ r ∈ ds
  ffull : L.ffull ⊆ ds
  fpins : L.fpins = []
  nodup : ds.Nodup

/-- All that a comparison borrows is given back. -/
theorem Loans.Compares.release {res : Option Reg} {pins : List Reg} {temps : List FReg}
    (h : L.Compares res pins temps) :
    ((L.dropFTemps temps).dropPins pins).dropTemp? res = Loans.none := by
  have hftemps : ∀ r ∈ L.ftemps, r ∈ temps := fun r => (h.ftemps r).1
  have hffull : ∀ r ∈ L.ffull, r ∈ temps := fun r hr => h.ffull hr
  have hpins : ∀ r ∈ L.pins, r ∈ pins := fun r hr => h.pins hr
  obtain ⟨t, p, fl, ft, fp, ff⟩ := L
  obtain rfl : t = res.toList := h.temps
  obtain rfl : fl = [] := h.full
  obtain rfl : fp = [] := h.fpins
  simp only [Loans.dropFTemps, Loans.dropPins, Loans.dropTemp?, Loans.none, Loans.mk.injEq]
  refine ⟨?_, ?_, ?_, ?_, ?_, ?_⟩
  · cases res <;> simp
  · simpa using hpins
  · rfl
  · simpa using hftemps
  · trivial
  · simpa using hffull

namespace CompileM

variable {β : Type} {c : Context} {σ : Sketch} {f : Frame} {L : Loans} {P : Shape} {s : Slot}
  {b n : Nat}

/-! ### Type names -/

variable {onTrue negated : Bool} {x lhs rhs : Slot} {holds : Cond} {tag first : Tag} {res : Reg}
  {σ₀ : Sketch} {second : Option Tag}

theorem plainBranch?_eq_some {i : Instr} (h : i.plainBranch? = some onTrue) :
    ∃ kind off, i = .branch kind off := by
  unfold Instr.plainBranch? at h
  split at h
  · exact ⟨_, _, rfl⟩
  · exact ⟨_, _, rfl⟩
  · cases h

/-- A comparison with a type name follows. -/
theorem typeOfComparison?_delivers {Q : Option (TypeName × Bool) → Sketch → Prop}
    (h : ∀ o : Option (TypeName × Bool), (o.isSome → ∃ l op,
      c.function.code[c.pc + 1]? = some (.push l) ∧
      c.function.code[c.pc + 2]? = some (.compare op) ∧
      ∀ k < 2, c.flow.isJumpTarget (c.pc + k + 1) = false) → Q o σ) :
    Delivers c typeOfComparison? σ Q := by
  refine delivers_bind (fusable?_delivers fun o₁ h₁ => ?_)
  refine delivers_bind (fusable?_delivers fun o₂ h₂ => ?_)
  split
  · exact delivers_read
      (delivers_pure (h _ fun _ => ⟨_, _, (h₁ _ rfl).1, (h₂ _ rfl).1, (h₂ _ rfl).2⟩))
  · exact delivers_pure (h _ nofun)

/-- A type test whose answer is a string. -/
theorem typeOfAlone_delivers {known : KnownType} (hi : c.function.code[c.pc]? = some .typeOf)
    (hσ : σ.Clean) (hn : σ.frame.stackBase < σ.frame.sp) :
    Delivers c (typeOfAlone known) σ fun r σ' => Completes c σ r.2 σ' := by
  unfold typeOfAlone
  split
  · refine (replaceByConstant_delivers hσ hn
      (by simp [Value.tag])).bind fun _ σ₁ h₁ => delivers_pure ?_
    exact .single hi h₁.1 (Nat.one_le_of_lt hn) h₁.2 (by rintro ⟨⟩)
  · refine (emitStub_delivers .typeOf hσ hn).bind fun _ σ₁ h₁ => delivers_pure ?_
    exact .single hi h₁.1 (Nat.one_le_of_lt hn) h₁.2 (by rintro ⟨⟩)

/-- A type test that ends in a branch. -/
theorem typeOfBranch_delivers {t : Nat} (hσ : σ.Clean) (hn : σ.frame.stackBase < σ.frame.sp)
    (hx : x < σ.frame.sp) (hk : σ.frame.knownType x = .unknown)
    (htarget : c.function.jumpTarget? (c.pc + 3) = some t) (ht : c.Jumps t) :
    Delivers c (typeOfBranch x holds tag onTrue) σ fun r σ' => r.2 = 3 ∧ σ'.Clean ∧
      σ'.frame.sp = σ.frame.sp - 1 := by
  refine delivers_bind (jumpTarget_delivers htarget ?_)
  refine delivers_bind (absorb_delivers (delivers_routed hσ.lent fun hr => ?_))
  refine (delivers_asm (hr.tagOperand hx hk)).bind ?_
  rintro o σ₁ ⟨h₁, ho⟩
  have ho := ho.mono (Nat.le_refl _) hr.bound
  refine (delivers_asm (h₁.update (pop_settles hn))).bind ?_
  rintro - σ₂ ⟨_, _, h₂, rfl, rfl⟩
  refine (delivers_frame h₂.syncAll).bind fun _ σ₃ h₃ => ?_
  refine (jump_delivers h₃ ?_ ht).andThen fun _ σ₄ h₄ => ?_
  · exact ⟨ho, trivial⟩
  exact delivers_pure ⟨rfl, h₄.clean, by rw [h₄.frame]; rfl⟩

/-- A type test that ends in a boolean. -/
theorem typeOfTest_delivers (hσ : σ.Clean) (hn : σ.frame.stackBase < σ.frame.sp)
    (hx : x < σ.frame.sp) (hk : σ.frame.knownType x = .unknown) :
    Delivers c (typeOfTest x holds tag) σ fun r σ' => r.2 = 2 ∧ σ'.Clean ∧
      σ'.frame.sp = σ.frame.sp := by
  refine delivers_bind (absorb_delivers ?_)
  refine pinned_delivers (tagReg_delivers hσ.lent (by decide) hx hk)
    fun r pins res σ₁ P h₁ hr₁ _ hreg hres => ?_
  refine (delivers_asm (hr₁.emit_fast rfl rfl ?_)).bind fun _ σ₂ h₂ => ?_
  · exact ⟨⟨hreg, trivial⟩, hres⟩
  refine (outcome_delivers h₂.releasing (by rw [h₁.base, h₁.sp]; exact hn) (.inl rfl)).mono ?_
  rintro v σ' ⟨rfl, hσ', hsp⟩
  exact ⟨rfl, hσ', by rw [hsp, h₁.sp, Nat.sub_add_cancel (Nat.one_le_of_lt hn)]⟩

/-- A type test, alone or with the comparison that follows it. -/
theorem typeOf_delivers (hc : c.Reached) (hi : c.function.code[c.pc]? = some .typeOf)
    (hσ : σ.Clean) (hn : σ.frame.stackBase < σ.frame.sp) :
    Delivers c typeOf σ fun r σ' => Completes c σ r.2 σ' := by
  have hx := peek_lt (n := 1) (by decide) hn
  refine delivers_queryFrame (delivers_bind (typeOfComparison?_delivers fun o ho => ?_))
  split
  · exact typeOfAlone_delivers hi hσ hn
  obtain ⟨l, op, hpush, hcompare, hjump⟩ := ho rfl
  have hthree : ∀ σ', σ'.Clean → σ'.frame.sp = σ.frame.sp → Completes c σ 2 σ' := by
    intro σ' hσ' hsp
    refine ⟨hσ', ?_, ((Context.Falls.zero c).succ hi rfl).succ hpush rfl, hjump, _, hcompare,
      by rintro ⟨⟩⟩
    rw [effectOf_succ hi, effectOf_succ hpush, effectOf_succ hcompare, effectOf_zero]
    simp only [Instr.stackEffect, Instr.StackEffect.delta]
    lia
  split
  · refine delivers_bind (absorb_delivers ?_)
    refine (replaceByConstant_delivers hσ hn
      (by simp [Value.tag])).bind fun _ σ₁ h₁ => delivers_pure ?_
    exact hthree σ₁ h₁.1 (h₁.2.trans (Nat.sub_add_cancel (Nat.one_le_of_lt hn)))
  · next hk _ =>
    refine delivers_bind (fusable?_delivers fun o₃ h₃ => ?_)
    split
    · next onTrue hplain =>
      obtain ⟨i₃, rfl, hi₃⟩ := Option.bind_eq_some_iff.1 hplain
      obtain ⟨kind, off, rfl⟩ := plainBranch?_eq_some hi₃
      obtain ⟨hbranch, hjump₃⟩ := h₃ _ rfl
      have hfalls := (((Context.Falls.zero c).succ hi rfl).succ hpush rfl).succ hcompare rfl
      obtain ⟨t, htarget, ht⟩ := hc.jump hfalls hbranch rfl
      refine (typeOfBranch_delivers hσ hn hx hk htarget ht).mono ?_
      rintro ⟨e, _⟩ σ' ⟨rfl, hσ', hsp⟩
      refine ⟨hσ', ?_, hfalls, hjump₃, _, hbranch, by rintro ⟨⟩⟩
      rw [effectOf_succ hi, effectOf_succ hpush, effectOf_succ hcompare, effectOf_succ hbranch,
        effectOf_zero]
      simp only [Instr.stackEffect, Instr.StackEffect.delta]
      lia
    · refine (typeOfTest_delivers hσ hn hx hk).mono ?_
      rintro ⟨e, _⟩ σ' ⟨rfl, hσ', hsp⟩
      exact hthree σ' hσ' hsp
  · exact typeOfAlone_delivers hi hσ hn

/-! ### Finishing a comparison -/

/-- The comparison has been decided: its outcome is on the stack, or a branch on it has been
compiled along. -/
def Decides (σ : Sketch) (fused : Option FusedBranch) (r : Emitted × Nat) (σ' : Sketch) : Prop :=
  σ'.Clean ∧ ((r.2 = 0 ∧ σ'.frame.sp = σ.frame.sp - 2 + 1) ∨
    (r.2 = 1 ∧ fused.isSome ∧ σ'.frame.sp = σ.frame.sp - 2))

variable {op : CompareOp} {operands : CompareOperands} {pins : List Reg} {temps : List FReg}
  {fused : Option FusedBranch}

theorem emitOutcome_delivers (h : σ.Armed f L P []) (ho : operands.Reads P) (hres : res.Valid) :
    Delivers c (liftM (emitOutcome op operands res)) σ fun _ σ' =>
      σ'.Armed f L (P.withReg res) [] := by
  cases operands with
  | int cond lhs rhs =>
    refine (emit_delivers h rfl rfl ?_).mono fun _ _ h' => h'.1
    exact ⟨⟨ho.1, ho.2 _⟩, hres⟩
  | double lhs rhs =>
    refine (emit_delivers h rfl rfl ?_).mono fun _ _ h' => h'.1
    exact ⟨ho, hres⟩

/-- A comparison that ends in a boolean. -/
theorem finishBoolean_delivers (h : σ.Armed f L P []) (hL : L.Compares (some res) pins temps)
    (ho : operands.Reads P) (hres : res.Valid) (hn : f.stackBase + 2 ≤ f.sp) :
    Delivers c (finishBoolean op operands res pins temps) σ fun r σ' => r.2 = 0 ∧ σ'.Clean ∧
      σ'.frame.sp = f.sp - 2 + 1 := by
  refine (emitOutcome_delivers h ho hres).bind fun _ σ₁ ha₁ => ?_
  refine delivers_queryExits (slowCall?_delivers ha₁ fun σ₂ h₂ => ?_)
  have hfree : Settles c.slots (freeDoubles temps) σ₂.frame σ₂.loans
      (σ₂.shape .fast) fun _ f' M => M = L.dropFTemps temps ∧ f'.sp = f.sp := by
    rw [h₂.loans]
    exact (freeDoubles_settles hL.nodup fun r hr => (hL.ftemps r).2 hr).mono
      fun _ _ _ h' => ⟨h'.1, h'.2.sp.trans h₂.sp⟩
  refine (release_delivers h₂ hfree).bind fun _ σ₃ h₃ => ?_
  refine (unpinAll_delivers pins h₃).bind fun _ σ₄ h₄ => ?_
  refine (replaceByBoolean_delivers h₄ hn ?_ (.inl rfl)).bind fun _ σ₅ h₅ => ?_
  · change res ∈ L.temps
    simp [hL.temps]
  rw [← Loans.dropTemp?_some, hL.release] at h₅
  refine (rejoin?_delivers h₅).mono ?_
  rintro r σ' ⟨rfl, hσ', hsp⟩
  exact ⟨rfl, hσ', hsp⟩

/-- The slow path of a fused branch. -/
theorem fusedSlowPath_delivers {b : FusedBranch} (h : σ.Armed f L P [])
    (hP : P.Covers (L.shape f)) (hb : c.Jumps b.target) :
    Delivers c (fusedSlowPath op b) σ fun fall? σ' => ∃ ss p,
      σ'.Routing f L P Shape.all ss [] fall?.toList false p ∧
      (∀ j, fall? = some j → ∃ A, (j, A) ∈ ss) ∧ (fall? = none → p = false) := by
  refine delivers_queryExits ?_
  have hr := h.routing hP
  cases hw : σ.waiting with
  | false =>
    rw [hw] at hr
    exact delivers_pure ⟨[], false, hr, nofun, fun _ => rfl⟩
  | true =>
    refine (delivers_asm hr.slowCall).bind fun _ σ₁ h₁ => ?_
    refine (jump_slow_delivers h₁ ?_ hb).andThen fun _ σ₂ h₂ => ?_
    · exact ⟨rfl, trivial⟩
    refine (delivers_asm (h₂.branch_slow ?_)).bind fun fall σ₃ h₃ => ?_
    · trivial
    exact delivers_pure ⟨_, true, h₃, fun j hj => Option.some.inj hj ▸ ⟨_, .head _⟩, nofun⟩

/-- A fused branch that is not taken goes on. -/
theorem finishFall_delivers {fall? : Option Jump} {ss : List (Jump × Shape)} {p : Bool}
    (h : σ.Routing f Loans.none P Shape.all ss [] fall?.toList false p)
    (hfall : ∀ j, fall? = some j → ∃ A, (j, A) ∈ ss) (hp : fall? = none → p = false)
    (hbase : f.stackBase ≤ f.sp) :
    Delivers c (finishFall fall?) σ fun _ σ' => σ'.Clean ∧ σ'.frame.sp = f.sp := by
  cases fall? with
  | none =>
    rw [hp rfl] at h
    exact delivers_pure ⟨h.clean, by rw [h.frame]⟩
  | some j =>
    obtain ⟨A, hA⟩ := hfall j rfl
    refine (delivers_frame h.syncAndForget).bind fun _ σ₁ h₁ => ?_
    refine (delivers_asm (h₁.linkRejoin (.refl _) hA)).bind fun _ σ₂ h₂ => ?_
    refine delivers_ready fun hready₂ _ => delivers_queryFrame ?_
    refine (delivers_asm (h₂.complete (h₂.frame ▸ hready₂.room))).mono fun _ σ₃ h₃ => ?_
    exact ⟨h₃.clean, by rw [h₃.frame, Frame.sp_forget hbase]⟩

/-- A comparison that ends in a branch. -/
theorem finishFused_delivers {b : FusedBranch} (h : σ.Armed f L P [])
    (hP : P.Covers (L.shape f)) (hL : L.Compares none pins temps)
    (ho : operands.Reads P) (hn : f.stackBase + 2 ≤ f.sp)
    (hb : c.Jumps b.target) :
    Delivers c (finishFused op operands b pins temps) σ fun r σ' => r.2 = 1 ∧ σ'.Clean ∧
      σ'.frame.sp = f.sp - 2 := by
  refine (fusedSlowPath_delivers h hP hb).bind ?_
  rintro fall? σ₁ ⟨ss, p, h₁, hfall, hp⟩
  refine (delivers_frame (h₁.settles (unpinAll_settles pins))).bind ?_
  rintro - σ₂ ⟨f₂, _, h₂, rfl, hv₂⟩
  refine (delivers_asm (h₂.update (popN_settles ?_))).bind ?_
  · rw [hv₂.stackBase, hv₂.sp]
    exact hn
  rintro - σ₃ ⟨_, _, h₃, rfl, rfl⟩
  refine (delivers_frame h₃.syncAll).bind fun _ σ₄ h₄ => ?_
  refine (jump_delivers h₄ (ho.guard op b.onTrue _) hb).andThen fun _ σ₅ h₅ => ?_
  refine (delivers_frame (h₅.settles (freeDoubles_settles hL.nodup
    fun r hr => (hL.ftemps r).2 hr))).bind ?_
  rintro - σ₆ ⟨f₆, _, h₆, rfl, hv₆⟩
  have hloans : (L.dropPins pins).dropFTemps temps = Loans.none := by
    rw [← hL.release, Loans.dropTemp?_none]
    rfl
  rw [hloans] at h₆
  have hsp₆ : f₆.sp = f.sp - 2 := by
    rw [hv₆.sp]
    change (Frame.popN 2 f₂).sp = _
    rw [Frame.sp_popN, hv₂.sp]
  refine (finishFall_delivers h₆ hfall hp ?_).bind ?_
  · rw [hsp₆, hv₆.stackBase]
    change f₂.stackBase ≤ _
    rw [hv₂.stackBase]
    exact Nat.le_sub_of_add_le hn
  rintro - σ₇ ⟨hσ₇, hsp₇⟩
  exact delivers_pure ⟨rfl, hσ₇, hsp₇.trans hsp₆⟩

/-- Finishing a comparison: there is a register for the outcome unless a branch takes it. -/
theorem finishCompare_delivers {res : Option Reg} (h : σ.Armed f L P []) (hP : P.Covers (L.shape f))
    (hL : L.Compares res pins temps) (ho : operands.Reads P) (hres : ∀ r, res = some r → r.Valid)
    (hfused : res.isSome = fused.isNone) (hb : ∀ b, fused = some b → c.Jumps b.target)
    (hn : f.stackBase + 2 ≤ f.sp) (hsp : f.sp = σ₀.frame.sp) :
    Delivers c (finishCompare op operands res fused pins temps) σ fun r σ' =>
      Decides σ₀ fused r σ' := by
  cases fused with
  | none =>
    obtain ⟨r, rfl⟩ := Option.isSome_iff_exists.1 hfused
    refine (finishBoolean_delivers h hL ho (hres r rfl) hn).mono ?_
    rintro v σ' ⟨hv, hσ', hsp'⟩
    exact ⟨hσ', .inl ⟨hv, hsp ▸ hsp'⟩⟩
  | some b =>
    obtain rfl : res = none := Option.isSome_eq_false_iff.1 hfused |> Option.isNone_iff_eq_none.1
    refine (finishFused_delivers h hP hL ho hn (hb b rfl)).mono ?_
    rintro v σ' ⟨hv, hσ', hsp'⟩
    exact ⟨hσ', .inr ⟨hv, rfl, hsp ▸ hsp'⟩⟩

/-! ### Comparing payloads and doubles -/

/-- A boolean result has a register, a fused one has none. -/
theorem resultReg?_delivers (h : σ.Lent f L) (hroom : L.count < Reg.count) :
    Delivers c (liftM (resultReg? fused)) σ fun res σ' => σ'.Lent f (L.addTemp? res) ∧
      res.isSome = fused.isNone ∧ ∀ r, res = some r → r.Valid := by
  unfold resultReg?
  cases fused with
  | some b => exact delivers_pure ⟨h, rfl, nofun⟩
  | none =>
    dsimp only [Option.isSome]
    rw [if_neg Bool.false_ne_true, liftM_frame_bind]
    refine (alloc_delivers h hroom).bind ?_
    rintro r σ₁ ⟨h₁, hr, -⟩
    exact delivers_pure ⟨h₁, rfl, fun q hq => Option.some.inj hq ▸ hr⟩

theorem guardIntIfUnknown_delivers {js : List Jump} (h : σ.Armed f L P js) (hs : s < f.sp) :
    Delivers c (guardIntIfUnknown s) σ fun _ σ' => σ'.Armed f L P js := by
  refine delivers_queryFrame ?_
  rw [h.frame]
  split
  · next hk => exact guardTag_delivers h hs (.inl hk)
  · exact delivers_pure h

section

variable (hσ : σ.Clean) (hn : σ.frame.stackBase + 2 ≤ σ.frame.sp)
  (hb : ∀ b, fused = some b → c.Jumps b.target) (hl : lhs < σ.frame.sp) (hr : rhs < σ.frame.sp)
include hσ hn hb hl hr

/-- The operand on the left after swapping is no constant. -/
theorem compareSwapped_delivers {cond : Cond} (htl : σ.frame.knownType lhs ≠ .double)
    (htr : σ.frame.knownType rhs ≠ .double) (hc : σ.frame.constant? lhs = none) :
    Delivers c (do
      let lhsReg ← dataReg lhs
      let lhsPins ← pin lhsReg
      let (rhsOp, rhsPins) ←
        readOperand rhs (((← AsmM.frame).constant? rhs).map (·.payload.toInt64))
      let res ← resultReg? fused
      guardIntIfUnknown lhs
      guardIntIfUnknown rhs
      finishCompare op (.int cond lhsReg rhsOp) res fused (lhsPins ++ rhsPins) []) σ
      fun r σ' => Decides σ fused r σ' := by
  refine (dataReg_delivers hσ.lent (by decide) hl hc htl).bind ?_
  rintro lhsReg σ₁ ⟨h₁, hreg⟩
  refine (pin_delivers h₁ hreg).bind ?_
  rintro lhsPins σ₂ ⟨h₂, hpins, hmem⟩
  refine delivers_queryFrame ((readOperand_delivers h₂ ?_ hr fun hnone => ?_).bind ?_)
  · rw [Loans.count_addPins]
    change 0 + _ < 8
    omega
  · exact ⟨by simpa [h₂.view.constant?_eq] using hnone, htr⟩
  rintro ⟨rhsOp, rhsPins⟩ σ₃ ⟨h₃, hpins', hrhs⟩
  dsimp only at h₃ hpins' hrhs
  refine (resultReg?_delivers h₃ ?_).bind ?_
  · rw [Loans.count_addPins, Loans.count_addPins]
    change 0 + _ + _ < 8
    omega
  rintro res σ₄ ⟨h₄, hsome, hvalid⟩
  refine delivers_armed h₄ fun _ ha₄ => ?_
  have hv := h₄.view
  refine (guardIntIfUnknown_delivers ha₄ (hv.sp ▸ hl)).bind fun _ σ₅ ha₅ => ?_
  refine (guardIntIfUnknown_delivers ha₅ (hv.sp ▸ hr)).bind fun _ σ₆ ha₆ => ?_
  refine finishCompare_delivers ha₆ (.refl _) ⟨?_, rfl, ?_, by simp [Loans.addTemp?, Loans.none,
    Loans.addPins], List.nil_subset _, rfl, .nil⟩ ?_ hvalid hsome hb ?_ hv.sp
  · simp [Loans.addTemp?, Loans.addPins, Loans.none]
  · simp [Loans.addTemp?, Loans.addPins, Loans.none]
  · exact ⟨Loans.shape_pin _ (List.mem_append_right _ hmem), fun n => hrhs n σ₄.frame⟩
  · rw [h₄.base, h₄.sp]
    exact hn

/-- Comparing two payloads. -/
theorem comparePayloads_delivers (htl : σ.frame.knownType lhs ≠ .double)
    (htr : σ.frame.knownType rhs ≠ .double)
    (hconst : σ.frame.constant? lhs = none ∨ σ.frame.constant? rhs = none) :
    Delivers c (comparePayloads op lhs rhs fused) σ fun r σ' => Decides σ fused r σ' := by
  refine delivers_queryFrame ?_
  cases hc : σ.frame.constant? lhs with
  | none => exact compareSwapped_delivers hσ hn hb hl hr htl htr hc
  | some v =>
    exact compareSwapped_delivers hσ hn hb hr hl htr htl (hconst.resolve_left (by simp [hc]))

/-- Comparing two numbers as doubles. -/
theorem compareDoubles_delivers
    (htl : σ.frame.knownType lhs = .unknown ∨ (σ.frame.knownType lhs).isNumber)
    (htr : σ.frame.knownType rhs = .unknown ∨ (σ.frame.knownType rhs).isNumber) :
    Delivers c (compareDoubles op lhs rhs fused) σ fun r σ' => Decides σ fused r σ' := by
  refine (copyNumber_delivers hσ.lent (by decide) (by decide) hl htl).bind ?_
  rintro l σ₁ ⟨h₁, -, -⟩
  refine (copyNumber_delivers h₁ (by simp [Reg.count]) (by simp [FReg.allocatable]) hr
    htr).bind ?_
  rintro r σ₂ ⟨h₂, -, hfresh⟩
  refine (resultReg?_delivers h₂ (by simp [Reg.count])).bind ?_
  rintro res σ₃ ⟨h₃, hsome, hvalid⟩
  refine delivers_armed h₃ fun _ ha₃ => ?_
  have hv := h₃.view
  refine (guardNumber_delivers ha₃ (hv.sp ▸ hl) (by simpa [hv.knownType] using htl)).andThen
    fun _ σ₄ ha₄ => ?_
  refine (guardNumber_delivers ha₄ (hv.sp ▸ hr) (by simpa [hv.knownType] using htr)).andThen
    fun _ σ₅ ha₅ => ?_
  have hne : l ≠ r := by
    rintro rfl
    exact hfresh List.mem_cons_self
  refine finishCompare_delivers ha₅ (.refl _) ⟨?_, rfl, List.nil_subset _, fun q => ?_, ?_, rfl,
    by simpa using hne⟩ ?_ hvalid hsome hb ?_ hv.sp
  · simp [Loans.addTemp?, Loans.addFFull, Loans.none]
  · simp [Loans.addTemp?, Loans.addFFull, Loans.none, or_comm]
  · simp [Loans.addTemp?, Loans.addFFull, Loans.none]
  · exact ⟨Loans.shape_ffull _ (.tail _ (.head _)), Loans.shape_ffull _ (.head _)⟩
  · rw [h₃.base, h₃.sp]
    exact hn

end

/-! ### Comparing with null and undefined -/

section Tags

variable {J : Nat → Prop} {D : Nat} {S : Shape} {ss : List (Jump × Shape)}
  {ts : List (Label × Shape)} {js : List Jump} {w p : Bool} {tag : Operand} {tags : List Tag}
  {target : Nat}

theorem branchAmongTags_delivers (h : σ.Routing f L P S ss ts js w p)
    (htag : tag.Reads (f.limit D) P) (ht : J target) :
    AsmM.Delivers J D (branchAmongTags tag tags target) σ fun _ σ' =>
      σ'.Routing f L P S ss ts js w p := by
  induction tags generalizing σ with
  | nil => exact AsmM.delivers_pure h
  | cons t tags ih =>
    refine AsmM.Delivers.bind (h.jump_fast ?_ ht) fun _ σ₁ h₁ => ih h₁
    exact ⟨htag, trivial⟩

/-- Several branches on a tag, which are still to be led somewhere. -/
theorem branchTags_delivers (h : σ.Routing f L P S ss ts js w p)
    (htag : tag.Reads (f.limit D) P) :
    AsmM.Delivers J D (tags.mapM fun t => AsmM.branchTag .fast tag t) σ fun ks σ' => ∃ ss',
      σ'.Routing f L P S ss' ts (ks ++ js) w p ∧ ∀ k ∈ ks, (k, P) ∈ ss' := by
  suffices ∀ tags : List Tag, AsmM.Delivers J D (tags.mapM fun t => AsmM.branchTag .fast tag t) σ
      fun ks σ' => ∃ ss', σ'.Routing f L P S ss' ts (ks ++ js) w p ∧ ss ⊆ ss' ∧
        ∀ k ∈ ks, (k, P) ∈ ss' from
    (this tags).mono fun _ _ ⟨ss', h', _, hks⟩ => ⟨ss', h', hks⟩
  intro tags
  induction tags generalizing σ ss js with
  | nil => exact AsmM.delivers_pure ⟨ss, h, List.Subset.refl _, nofun⟩
  | cons t tags ih =>
    rw [List.mapM_cons]
    refine AsmM.Delivers.bind (h.branch_fast ?_) fun k σ₁ h₁ => ?_
    · exact ⟨htag, trivial⟩
    refine (ih h₁).bind ?_
    rintro ks σ₂ ⟨ss', h₂, hss, hks⟩
    refine AsmM.delivers_pure ⟨ss', ?_, fun j hj => hss (.tail _ hj), ?_⟩
    · exact h₂.perm List.perm_middle
    · simpa using ⟨hss (.head _), hks⟩

/-- Branching unless the tag is one of several. -/
theorem branchOutsideTags_delivers {last : Tag} (h : σ.Routing f L P S ss ts js w p)
    (htag : tag.Reads (f.limit D) P) (ht : J target) :
    AsmM.Delivers J D (branchOutsideTags tag tags last target) σ fun _ σ' =>
      σ'.Routing f L P S [] [] js w p := by
  refine (branchTags_delivers h htag).bind ?_
  rintro skips σ₁ ⟨ss', h₁, hskips⟩
  refine AsmM.delivers_bind ((h₁.branch_fast ?_).mono fun k σ₂ h₂ => ?_)
  · exact ⟨htag, trivial⟩
  refine (h₂.linkPc (.refl _) (.head _) ht).bind fun _ σ₃ h₃ => ?_
  refine (h₃.label_fast P (.refl P) h.lent).bind fun l σ₄ h₄ => ?_
  exact (h₄.linkAll (.refl _) (fun k hk => ⟨P, .tail _ (hskips k hk), .refl P⟩) (.head _)).mono
    fun _ σ₅ h₅ => h₅.forget

end Tags

/-- Branching on whether a value is null or undefined. -/
theorem nullishBranch_delivers {tags : List Tag} {last : Tag} {b : FusedBranch} (hσ : σ.Clean)
    (hn : σ.frame.stackBase + 2 ≤ σ.frame.sp) (hx : x < σ.frame.sp)
    (hk : σ.frame.knownType x = .unknown) (hb : c.Jumps b.target) :
    Delivers c (nullishBranch x tags last negated b) σ fun r σ' => r.2 = 1 ∧ σ'.Clean ∧
      σ'.frame.sp = σ.frame.sp - 2 := by
  refine delivers_routed hσ.lent fun hr => ?_
  refine (delivers_asm (hr.tagOperand hx hk)).bind ?_
  rintro o σ₁ ⟨h₁, ho⟩
  have ho := ho.mono (Nat.le_refl _) hr.bound
  refine (delivers_asm (h₁.update (popN_settles hn))).bind ?_
  rintro - σ₂ ⟨_, _, h₂, rfl, rfl⟩
  refine (delivers_frame h₂.syncAll).bind fun _ σ₃ h₃ => ?_
  have hdone : ∀ σ₄ : Sketch, σ₄.Routing ((Frame.popN 2 σ.frame).mapLive Entry.synced) Loans.none
      (Loans.none.shape σ.frame) Shape.all [] [] [] false false →
      Delivers c (pure (Emitted.inline, 1)) σ₄ fun r σ' => r.2 = 1 ∧ σ'.Clean ∧
        σ'.frame.sp = σ.frame.sp - 2 := fun σ₄ h₄ =>
    delivers_pure ⟨rfl, h₄.clean, by rw [h₄.frame]; rfl⟩
  dsimp only
  split
  · exact (delivers_asm (branchAmongTags_delivers h₃ ho hb)).bind fun _ σ₄ h₄ => hdone σ₄ h₄
  · exact (delivers_asm (branchOutsideTags_delivers h₃ ho hb)).bind fun _ σ₄ h₄ => hdone σ₄ h₄

/-- Testing whether a tag is one of several. -/
theorem emitTagAmong_delivers {tag : Reg} (h : σ.Lent f ((Loans.none.addPins [tag]).addTemp res))
    (hr : σ.Routing σ.frame ((Loans.none.addPins [tag]).addTemp res) P Shape.all [] [] [] false
      false) (hres : res.Valid) :
    Delivers c (emitTagAmong tag first second res) σ fun _ σ' => ∃ f' P', f.SameView f' ∧
      σ'.Routing f' ((Loans.none.addPins [tag]).addTemp res) P' Shape.all [] [] [] false false ∧
      P'.reg res := by
  have hpinned : tag ∈ ((Loans.none.addPins [tag]).addTemp res).pins := List.mem_cons_self
  cases second with
  | none =>
    refine (delivers_asm (hr.emit_fast rfl rfl ?_)).mono fun _ σ₁ h₁ =>
      ⟨_, _, h.view, h₁, .inl rfl⟩
    exact ⟨⟨hr.lent.reg _ (Loans.shape_pin _ hpinned), trivial⟩, hres⟩
  | some t =>
    refine (alloc_delivers h (by simp [Reg.count])).bind ?_
    rintro scratch σ₁ ⟨h₁, hscratch, hfresh⟩
    refine delivers_routed h₁ fun hr₁ => ?_
    refine (delivers_asm (hr₁.emit_fast rfl rfl ?_)).bind fun _ σ₂ h₂ => ?_
    · exact ⟨⟨Loans.shape_pin _ hpinned, trivial⟩, hres⟩
    refine (delivers_asm (h₂.emit_fast rfl rfl ?_)).bind fun _ σ₃ h₃ => ?_
    · exact ⟨⟨.inr (Loans.shape_pin _ hpinned), trivial⟩, hscratch⟩
    refine (delivers_asm (h₃.emit_fast rfl rfl ?_)).bind fun _ σ₄ h₄ => ?_
    · exact ⟨⟨.inr (.inl rfl), .inl rfl⟩, hres⟩
    refine (delivers_frame (h₄.settles (free_settles List.mem_cons_self))).mono ?_
    rintro - σ₅ ⟨f₅, _, h₅, rfl, hv₅⟩
    have hdrop : (((Loans.none.addPins [tag]).addTemp res).addTemp scratch).dropTemp scratch =
        (Loans.none.addPins [tag]).addTemp res := by
      have hne : res ≠ scratch := by
        rintro rfl
        exact hfresh List.mem_cons_self
      simp [Loans.dropTemp, Loans.addTemp, Loans.addPins, Loans.none, hne]
    rw [hdrop] at h₅
    exact ⟨f₅, _, h₁.view.trans hv₅, h₅, .inl rfl⟩

/-- Whether a value is null or undefined, as a boolean. -/
theorem nullishTest_delivers (hσ : σ.Clean) (hn : σ.frame.stackBase + 2 ≤ σ.frame.sp)
    (hx : x < σ.frame.sp) (hk : σ.frame.knownType x = .unknown) :
    Delivers c (nullishTest x first second negated) σ fun r σ' => r.2 = 0 ∧ σ'.Clean ∧
      σ'.frame.sp = σ.frame.sp - 2 + 1 := by
  refine pinned_delivers (tagReg_delivers hσ.lent (by decide) hx hk)
    fun tag pins res σ₁ P h₁ hr₁ hpins _ hres => ?_
  obtain rfl := hpins
  refine (emitTagAmong_delivers h₁ hr₁ hres).bind ?_
  rintro - σ₂ ⟨f₂, P₂, hv₂, h₂, hres₂⟩
  have hbase : f₂.stackBase + 2 ≤ f₂.sp := by
    rw [hv₂.stackBase, hv₂.sp]
    exact hn
  have hdone : ∀ σ₃ P₃, σ₃.Routing f₂ ((Loans.none.addPins [tag]).addTemp res) P₃ Shape.all [] []
      [] false false → P₃.reg res → Delivers c (do
        unpinAll [tag]
        replaceByBoolean 2 res
        return (Emitted.inline, 0)) σ₃ fun r σ' => r.2 = 0 ∧ σ'.Clean ∧
          σ'.frame.sp = σ.frame.sp - 2 + 1 := by
    intro σ₃ P₃ h₃ hres₃
    refine (outcome_delivers h₃.releasing hbase hres₃).mono ?_
    rintro v σ' ⟨rfl, hσ', hsp⟩
    exact ⟨rfl, hσ', hv₂.sp ▸ hsp⟩
  cases negated with
  | false => exact delivers_bind (delivers_asm (AsmM.delivers_pure (hdone σ₂ P₂ h₂ hres₂)))
  | true =>
    refine (delivers_asm (h₂.emit_fast rfl rfl ?_)).bind fun _ σ₃ h₃ => hdone σ₃ _ h₃ (.inl rfl)
    exact ⟨⟨hres₂, trivial⟩, hres⟩

theorem compareKnown_delivers {outcome : Bool} (hσ : σ.Clean)
    (hn : σ.frame.stackBase + 2 ≤ σ.frame.sp) :
    Delivers c (compareKnown outcome) σ fun r σ' => Decides σ fused r σ' :=
  (replaceByConstant_delivers hσ hn (by simp [Value.tag])).bind fun _ _ h => delivers_pure ⟨h.1,
    .inl ⟨rfl, h.2⟩⟩

/-- Comparing with null or undefined. -/
theorem compareNullish_delivers {strict : Bool} {nullish : Value} (hσ : σ.Clean)
    (hn : σ.frame.stackBase + 2 ≤ σ.frame.sp) (hx : x < σ.frame.sp)
    (hb : ∀ b, fused = some b → c.Jumps b.target) :
    Delivers c (compareNullish strict negated nullish x fused) σ fun r σ' =>
      Decides σ fused r σ' := by
  refine delivers_queryFrame ?_
  dsimp only
  split
  · exact compareKnown_delivers hσ hn
  next hk =>
  have hk : σ.frame.knownType x = .unknown := not_not.1 hk
  have hbranch : ∀ b tags last, fused = some b →
      Delivers c (nullishBranch x tags last negated b) σ fun r σ' => Decides σ fused r σ' := by
    rintro b tags last rfl
    exact (nullishBranch_delivers hσ hn hx hk (hb b rfl)).mono fun _ _ h =>
      ⟨h.2.1, .inr ⟨h.1, rfl, h.2.2⟩⟩
  have htest : ∀ first second, Delivers c (nullishTest x first second negated) σ fun r σ' =>
      Decides σ fused r σ' := fun first second =>
    (nullishTest_delivers hσ hn hx hk).mono fun _ _ h => ⟨h.2.1, .inl ⟨h.1, h.2.2⟩⟩
  split
  · exact hbranch _ _ _ rfl
  · exact hbranch _ _ _ rfl
  · exact htest _ _
  · exact htest _ _

/-! ### Comparing with a boolean and with itself -/

/-- The outcome takes the place of both operands. -/
theorem decided_delivers (h : σ.Releasing false b n L P)
    (hL : (L.dropPins pins).dropTemp res = Loans.none) (hres : res ∈ L.temps) (hP : P.reg res)
    (hk : b + 2 ≤ n) (hn : n = σ₀.frame.sp) :
    Delivers c (do
      unpinAll pins
      replaceByBoolean 2 res
      return (Emitted.inline, 0)) σ fun r σ' => Decides σ₀ fused r σ' := by
  refine (unpinAll_delivers pins h).bind fun _ σ₁ h₁ => ?_
  refine (boolean_delivers h₁ hL hk hres hP).mono ?_
  rintro v σ' ⟨rfl, hσ', hsp⟩
  exact ⟨hσ', .inl ⟨rfl, hn ▸ hsp⟩⟩

/-- Comparing with a boolean constant. -/
theorem compareBoolean_delivers {b : Bool} (hσ : σ.Clean) (hn : σ.frame.stackBase + 2 ≤ σ.frame.sp)
    (hx : x < σ.frame.sp) (hc : σ.frame.constant? x = none) :
    Delivers c (compareBoolean negated b x) σ fun r σ' => Decides σ fused r σ' := by
  refine delivers_queryFrame ?_
  split
  · next hk =>
    refine pinned_delivers (dataReg_delivers hσ.lent (by decide) hx hc (by simp [hk]))
      fun payload pins res σ₁ P h₁ hr₁ _ hpay hres => ?_
    refine (delivers_asm (hr₁.emit_fast rfl rfl ?_)).bind fun _ σ₂ h₂ => ?_
    · exact ⟨⟨hpay, trivial⟩, hres⟩
    exact decided_delivers h₂.releasing (release_pinned pins res) List.mem_cons_self (.inl rfl)
      (by rw [h₁.base, h₁.sp]; exact hn) h₁.sp
  · next hk =>
    refine pinned_delivers (dataReg_delivers hσ.lent (by decide) hx hc (by simp [hk]))
      fun payload pins res σ₁ P h₁ hr₁ _ hpay hres => ?_
    have hv := h₁.view
    refine (delivers_asm (hr₁.tagOperand (hv.sp ▸ hx) ((hv.knownType x).trans hk))).bind ?_
    rintro tag σ₂ ⟨h₂, htag⟩
    refine (delivers_asm (h₂.emit_fast rfl rfl ?_)).bind fun _ σ₃ h₃ => ?_
    · exact ⟨trivial, hres⟩
    refine (delivers_asm (h₃.branch_fast ?_)).bind fun notBool σ₄ h₄ => ?_
    · exact ⟨htag.mono (Nat.le_refl _) h₃.bound, trivial⟩
    refine (delivers_asm (h₄.emit_fast rfl rfl ?_)).bind fun _ σ₅ h₅ => ?_
    · exact ⟨⟨.inr hpay, trivial⟩, hres⟩
    refine (delivers_asm (h₅.label_fast (P.withReg res) (Shape.withReg_covers _ _) h₃.lent)).bind
      fun l σ₆ h₆ => ?_
    refine (delivers_asm (h₆.link (.refl _) (.head _) (.head _) (.refl _))).bind fun _ σ₇ h₇ => ?_
    exact decided_delivers h₇.releasing (release_pinned pins res)
      List.mem_cons_self (.inl rfl) (by rw [h₁.base, h₁.sp]; exact hn) h₁.sp
  · exact compareKnown_delivers hσ hn

theorem compareStub_delivers (hσ : σ.Clean) (hn : σ.frame.stackBase + 2 ≤ σ.frame.sp) :
    Delivers c (do return (← emitStub (.compare op) 0, 0)) σ fun r σ' => Decides σ fused r σ' :=
  (emitStub_delivers (.compare op) hσ hn).bind fun _ _ h => delivers_pure ⟨h.1, .inl ⟨rfl, h.2⟩⟩

/-- Comparing a value with itself. -/
theorem compareSelf_delivers (hσ : σ.Clean) (hn : σ.frame.stackBase + 2 ≤ σ.frame.sp)
    (hx : x < σ.frame.sp) (hc : σ.frame.constant? x = none) :
    Delivers c (compareSelf op x) σ fun r σ' => Decides σ fused r σ' := by
  refine delivers_queryFrame ?_
  split
  · next hk =>
    refine (doubleReg_delivers hσ.lent (by decide) hx hc hk).bind ?_
    rintro src σ₁ ⟨h₁, hsrc⟩
    refine (alloc_keeps_doubles h₁ (by decide)).bind ?_
    rintro res σ₂ ⟨⟨h₂, hres, -⟩, hkeep⟩
    refine delivers_routed h₂ fun hr₂ => ?_
    have hsrc := hr₂.bound.freg _ (hkeep src hsrc)
    refine (delivers_asm (hr₂.emit_fast rfl rfl ?_)).bind fun _ σ₃ h₃ => ?_
    · exact ⟨⟨hsrc, hsrc⟩, hres⟩
    refine (boolean_delivers h₃.releasing (by simp [Loans.none, Loans.addTemp, Loans.dropTemp])
      (by rw [h₂.base, h₂.sp]; exact hn) List.mem_cons_self (.inl rfl)).mono ?_
    rintro v σ' ⟨rfl, hσ', hsp⟩
    exact ⟨hσ', .inl ⟨rfl, h₂.sp ▸ hsp⟩⟩
  · next hk _ =>
    refine pinned_delivers (dataReg_delivers hσ.lent (by decide) hx hc (by simp [hk]))
      fun payload pins res σ₁ P h₁ hr₁ _ hpay hres => ?_
    have hv := h₁.view
    refine (delivers_asm (hr₁.tagOperand (hv.sp ▸ hx) ((hv.knownType x).trans hk))).bind ?_
    rintro tag σ₂ ⟨h₂, htag⟩
    refine (delivers_asm (h₂.emit_fast rfl rfl ?_)).bind fun _ σ₃ h₃ => ?_
    · exact ⟨trivial, hres⟩
    refine (delivers_asm (h₃.branch_fast ?_)).bind fun notDouble σ₄ h₄ => ?_
    · exact ⟨htag.mono (Nat.le_refl _) h₃.bound, trivial⟩
    refine (delivers_asm (h₄.emit_fast rfl rfl ?_)).bind fun _ σ₅ h₅ => ?_
    · exact ⟨.inr hpay, FReg.scratch_valid⟩
    refine (delivers_asm (h₅.emit_fast rfl rfl ?_)).bind fun _ σ₆ h₆ => ?_
    · exact ⟨⟨.inl rfl, .inl rfl⟩, hres⟩
    refine (delivers_asm (h₆.label_fast (P.withReg res) ((Shape.withReg_covers _ _).trans
      (Shape.withFReg_covers _ _)) h₃.lent)).bind fun l σ₇ h₇ => ?_
    refine (delivers_asm (h₇.link (.refl _) (.head _) (.head _) (.refl _))).bind fun _ σ₈ h₈ => ?_
    exact decided_delivers h₈.releasing (release_pinned pins res)
      List.mem_cons_self (.inl rfl) (by rw [h₁.base, h₁.sp]; exact hn) h₁.sp
  · exact compareStub_delivers hσ hn
  · exact compareKnown_delivers hσ hn
  · exact compareKnown_delivers hσ hn
  · exact compareStub_delivers hσ hn

/-! ### Choosing a form -/

/-- Constants of which one comparison is not decided are no numbers, and no objects or booleans
to be tested for equality. -/
theorem fold?_eq_none {a b : Value} (h : op.fold? a b = none) :
    ¬ (mayBeNumber (.ofValue a) ∧ mayBeNumber (.ofValue b)) ∧
      ¬ (op.isEquality ∧ KnownType.ofValue a = .ofValue b ∧
        (KnownType.ofValue a = .object ∨ KnownType.ofValue a = .boolean)) := by
  constructor
  · rintro ⟨ha, hb⟩
    cases a <;> cases ha <;> cases b <;> cases hb <;> cases h
  · rintro ⟨hop, heq, ha⟩
    cases a <;> rcases ha with ha | ha <;> cases ha <;> cases b <;> cases heq <;>
      obtain ⟨strict, negated⟩ | _ := op <;> cases hop <;> cases strict <;> cases h

/-- The types of the operands decide how they are compared. -/
theorem compareByType_delivers (hσ : σ.Clean) (hn : σ.frame.stackBase + 2 ≤ σ.frame.sp)
    (hl : lhs < σ.frame.sp) (hr : rhs < σ.frame.sp) (hfold : foldCompare? σ.frame op lhs rhs = none)
    (hb : ∀ b, fused = some b → c.Jumps b.target) :
    Delivers c (compareByType op lhs rhs fused) σ fun r σ' => Decides σ fused r σ' := by
  refine delivers_ready fun hready _ => delivers_queryFrame ?_
  -- the payloads of two constants are never compared
  have hconst : (mayBeNumber (σ.frame.knownType lhs) ∧ mayBeNumber (σ.frame.knownType rhs)) ∨
      (op.isEquality ∧ σ.frame.knownType lhs = σ.frame.knownType rhs ∧
        (σ.frame.knownType lhs = .object ∨ σ.frame.knownType lhs = .boolean)) →
      σ.frame.constant? lhs = none ∨ σ.frame.constant? rhs = none := by
    intro h
    unfold foldCompare? at hfold
    cases ha : σ.frame.constant? lhs with
    | none => exact .inl rfl
    | some a =>
      cases hb : σ.frame.constant? rhs with
      | none => exact .inr rfl
      | some b =>
        rw [ha, hb] at hfold
        rw [hready.knownType_of_constant hl ha, hready.knownType_of_constant hr hb] at h
        obtain ⟨hnum, heq⟩ := fold?_eq_none hfold
        exact (h.elim hnum heq).elim
  dsimp only
  split
  · exact compareKnown_delivers hσ hn
  split
  · next h =>
    exact comparePayloads_delivers hσ hn hb hl hr (by grind) (by grind) (hconst (.inr h))
  split
  · next h =>
    rw [Bool.and_eq_true] at h
    split
    · exact compareDoubles_delivers hσ hn hb hl hr (by grind [mayBeNumber]) (by grind [mayBeNumber])
    · exact comparePayloads_delivers hσ hn hb hl hr (by grind) (by grind) (hconst (.inl h))
  · exact compareStub_delivers hσ hn

/-- A branch that can be fused is the next instruction. -/
theorem fusedBranch?_delivers {Q : Option FusedBranch → Sketch → Prop} (hc : c.Reached)
    (hi : c.function.code[c.pc]? = some (.compare op))
    (h : ∀ o : Option FusedBranch, (∀ b, o = some b → c.Jumps b.target) → (o.isSome →
      ∃ kind off, c.function.code[c.pc + 1]? = some (.branch kind off) ∧
        ∀ k < 1, c.flow.isJumpTarget (c.pc + k + 1) = false) → Q o σ) :
    Delivers c fusedBranch? σ Q := by
  refine delivers_bind (fusable?_delivers fun o ho => ?_)
  split
  · next onTrue hplain =>
    obtain ⟨i, rfl, hplain⟩ := Option.bind_eq_some_iff.1 hplain
    obtain ⟨kind, off, rfl⟩ := plainBranch?_eq_some hplain
    obtain ⟨hbranch, hjump⟩ := ho _ rfl
    obtain ⟨t, htarget, ht⟩ := hc.jump (n := 1) (fun k hk => by
      obtain rfl : k = 0 := Nat.lt_one_iff.1 hk
      exact ⟨_, hi, rfl⟩) hbranch rfl
    refine delivers_bind (jumpTarget_delivers htarget (delivers_pure (h _ ?_ fun _ =>
      ⟨kind, off, hbranch, hjump⟩)))
    rintro _ ⟨⟩
    exact ht
  · exact delivers_pure (h _ nofun nofun)

theorem nullishOperand?_eq_some {v : Value} (h : nullishOperand? f lhs rhs = some (v, x)) :
    x = lhs ∨ x = rhs := by
  unfold nullishOperand? at h
  split at h <;> simp_all

/-- The other side of a constant boolean is no constant, or the comparison would be decided. -/
theorem booleanOperand?_eq_some {b : Bool} (h : booleanOperand? f lhs rhs = some (b, x))
    (hfold : foldCompare? f (.equality true negated) lhs rhs = none) :
    (x = lhs ∨ x = rhs) ∧ f.constant? x = none := by
  have hconst : ∀ v w, f.constant? lhs = some v → f.constant? rhs ≠ some w := by
    intro v w hv hw
    simp only [foldCompare?, hv, hw] at hfold
    cases hx : v.double? <;> cases hy : w.double? <;> simp [CompareOp.fold?, hx, hy] at hfold
  unfold booleanOperand? at h
  split at h
  · next b hb =>
    cases h
    exact ⟨.inl rfl, Option.eq_none_iff_forall_ne_some.2 fun v hv => hconst v _ hv hb⟩
  · next b hb _ =>
    cases h
    exact ⟨.inr rfl, Option.eq_none_iff_forall_ne_some.2 fun w => hconst _ w hb⟩
  · cases h

/-- A comparison, alone or with the branch that follows it. -/
theorem compare_delivers (hc : c.Reached) (hi : c.function.code[c.pc]? = some (.compare op))
    (hσ : σ.Clean) (hn : σ.frame.stackBase + 2 ≤ σ.frame.sp) :
    Delivers c (compare op) σ fun r σ' => Completes c σ r.2 σ' := by
  have hl := peek_lt (n := 2) (by decide) hn
  have hr : σ.frame.peek 1 < σ.frame.sp := peek_lt Nat.one_pos (by lia)
  refine delivers_queryFrame (delivers_bind (fusedBranch?_delivers hc hi fun fused hb hfused => ?_))
  suffices Delivers c _ σ fun r σ' => Decides σ fused r σ' by
    refine this.mono ?_
    rintro ⟨e, n⟩ σ' ⟨hσ', ⟨rfl, hsp⟩ | ⟨rfl, hsome, hsp⟩⟩
    · exact .single hi hσ' (Nat.le_of_add_left_le hn) hsp nofun
    · obtain ⟨kind, off, hbranch, hjump⟩ := hfused hsome
      refine ⟨hσ', ?_, (Context.Falls.zero c).succ hi rfl, hjump, _, hbranch, nofun⟩
      rw [effectOf_succ hi, effectOf_succ hbranch, effectOf_zero]
      simp only [Instr.stackEffect, Instr.StackEffect.delta]
      lia
  split
  · exact compareKnown_delivers hσ hn
  · next hx _ =>
    refine compareNullish_delivers hσ hn ?_ hb
    rcases nullishOperand?_eq_some hx with rfl | rfl <;> assumption
  · next hx hfold _ =>
    obtain ⟨hx, hconst⟩ := booleanOperand?_eq_some hx hfold
    refine compareBoolean_delivers hσ hn ?_ hconst
    rcases hx with rfl | rfl <;> assumption
  · next hfold _ _ =>
    split
    · next h =>
      obtain ⟨hnone, hsame⟩ := Bool.and_eq_true_iff.1 h
      refine compareSelf_delivers hσ hn hl ?_
      have hbacking : σ.frame.backing (σ.frame.peek 2) = σ.frame.backing (σ.frame.peek 1) :=
        of_decide_eq_true hsame
      rw [Frame.constant?, Frame.backingEntry, hbacking]
      exact Option.isNone_iff_eq_none.1 hnone
    · exact compareByType_delivers hσ hn hl hr hfold hb

end CompileM

end FastPath
