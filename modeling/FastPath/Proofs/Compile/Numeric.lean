import FastPath.Proofs.Compile.Phases

/-!
# What the numeric emitters deliver

Additive and bitwise operators, unary plus and the increments. Each succeeds on every frame
that has its operands, whatever is known about them.
-/

namespace FastPath

open FrameM

theorem Heap.isNumber_pos {h : Heap} {v w : Value} (hw : h.pos v = .ok w) : w.isNumber := by
  unfold Heap.pos at hw
  split at hw
  · next hv => exact Except.ok.inj hw ▸ hv
  · cases hn : h.toNumber v with
    | error e => simp [hn, Except.map] at hw
    | ok d =>
      simp only [hn, Except.map] at hw
      exact Except.ok.inj hw ▸ Value.isNumber_number d

namespace CompileM

attribute [local simp] Loans.none Loans.addTemp Loans.addFTemp Loans.addTemp? Loans.addFTemp?
  Loans.addFull Loans.addFFull Loans.addPins Loans.dropPins Loans.dropTemp Loans.dropFTemp
  Loans.count Loans.fcount Reg.count FReg.allocatable

variable {c : Context} {σ : Sketch}

/-! ### Addition and subtraction -/

variable {op : ArithOp} {lhs rhs : Slot} {f : Frame} {L : Loans} {types : TypeSet} {form : BumpForm}
  {v : Bytecode.Var}

/-- Arithmetic on doubles. -/
theorem arithDouble_delivers (hσ : σ.Clean) (hn : σ.frame.stackBase + 2 ≤ σ.frame.sp)
    (hl : lhs < σ.frame.sp) (hr : rhs < σ.frame.sp)
    (htl : σ.frame.knownType lhs = .unknown ∨ (σ.frame.knownType lhs).isNumber)
    (htr : σ.frame.knownType rhs = .unknown ∨ (σ.frame.knownType rhs).isNumber) :
    Delivers c (arithDouble op lhs rhs) σ fun _ σ' => σ'.Clean ∧
      σ'.frame.sp = σ.frame.sp - 2 + 1 := by
  refine (copyNumber_delivers hσ.lent (by decide) (by decide) hl htl).bind ?_
  rintro res σ₁ ⟨h₁, hres, -⟩
  refine (copyNumber_delivers h₁ (by simp) (by simp) hr htr).bind ?_
  rintro src σ₂ ⟨h₂, -, hne⟩
  refine delivers_armed h₂ fun _ ha₂ => ?_
  have hv := h₂.view
  refine (guardNumber_delivers ha₂ (hv.sp ▸ hl) (hv.knownType lhs ▸ htl)).andThen fun _ σ₃ ha₃ => ?_
  refine (guardNumber_delivers ha₃ (hv.sp ▸ hr) (hv.knownType rhs ▸ htr)).andThen fun _ σ₄ ha₄ => ?_
  refine (emit_delivers ha₄ rfl rfl ?_).bind ?_
  · exact ⟨⟨Loans.shape_ffull _ (by simp), Loans.shape_ffull _ (by simp)⟩, hres⟩
  rintro - σ₅ ⟨ha₅, -⟩
  refine delivers_queryExits ?_
  dsimp only
  refine slowCall?_delivers ha₅ fun σ₆ h₆ => ?_
  refine (freeDouble_delivers h₆ (by simp)).bind fun _ σ₇ h₇ => ?_
  refine (popN_delivers h₇ (by rw [h₂.base, h₂.sp]; exact hn)).bind fun _ σ₈ h₈ => ?_
  refine (pushDouble_delivers h₈ ?_ (.inl rfl)).bind fun _ σ₉ h₉ => ?_
  · simpa using fun h : res = src => hne (by simp [h])
  have hL₉ : (((Loans.none.addFFull res).addFFull src).dropFTemp src).dropFTemp res =
    Loans.none := by simp
  exact (rejoin?_delivers (hL₉ ▸ h₉)).mono fun _ _ h => h₂.sp ▸ h.2

/-- The registers for an integer result. -/
theorem intResult_delivers {payload : Reg} {known : KnownType} (h : σ.Lent f L)
    (hroom : L.count < Reg.count) (hfroom : L.fcount < FReg.allocatable) :
    Delivers c (liftM (intResult payload known)) σ fun res σ' =>
      σ'.Lent f ((L.addFTemp? res.wide).addTemp? res.tag) ∧ res.payload = payload ∧
      (∀ r, res.wide = some r → r.Valid ∧ res.tag = none) ∧
      ∀ r, res.tag = some r → r.Valid ∧ r ∉ L.temps := by
  unfold intResult
  split
  · rw [liftM_frame_bind]
    refine (allocDouble_delivers h hfroom).bind ?_
    rintro r σ₁ ⟨h₁, hr, -⟩
    exact delivers_pure ⟨h₁, rfl, by simpa using hr, nofun⟩
  · split
    · rw [liftM_frame_bind]
      refine (alloc_delivers h hroom).bind ?_
      rintro r σ₁ ⟨h₁, hr, hne⟩
      exact delivers_pure ⟨h₁, rfl, nofun, by simpa using ⟨hr, hne⟩⟩
    · exact delivers_pure ⟨h, rfl, nofun, nofun⟩

/-- An integer result is widened where a double is wanted. -/
theorem completeInt_delivers {P : Shape} {res : IntResult} (h : σ.Armed f L P [])
    (hP : P.reg res.payload) (hw : ∀ r, res.wide = some r → r.Valid ∧ res.tag = none)
    (ht : ∀ r, res.tag = some r → r.Valid) :
    Delivers c (liftM (completeInt res)) σ fun _ σ' => ∃ P' : Shape, σ'.Armed f L P' [] ∧
      P'.Covers P ∧ (∀ r, res.wide = some r → P'.freg r) ∧ ∀ r, res.tag = some r → P'.reg r := by
  obtain ⟨payload, wide, tag⟩ := res
  unfold completeInt
  cases wide with
  | some r =>
    obtain ⟨hr, rfl⟩ := hw r rfl
    refine (emit_delivers h rfl rfl ?_).mono fun _ σ' h' => ?_
    · exact ⟨hP, hr⟩
    exact ⟨_, h'.1, P.withFReg_covers r, fun q hq => Option.some.inj hq ▸ .inl rfl, nofun⟩
  | none =>
    cases tag with
    | some r =>
      refine (emit_delivers h rfl rfl ?_).mono fun _ σ' h' => ?_
      · exact ⟨trivial, ht r rfl⟩
      exact ⟨_, h'.1, P.withReg_covers r, nofun, fun q hq => Option.some.inj hq ▸ .inl rfl⟩
    | none => exact delivers_pure ⟨P, h, .refl P, nofun, nofun⟩

/-- Arithmetic on integers. -/
theorem arithInt_delivers (hσ : σ.Clean) (hn : σ.frame.stackBase + 2 ≤ σ.frame.sp)
    (hl : lhs < σ.frame.sp) (hr : rhs < σ.frame.sp)
    (htl : σ.frame.knownType lhs = .unknown ∨ σ.frame.knownType lhs = .int32)
    (htr : σ.frame.knownType rhs = .unknown ∨ σ.frame.knownType rhs = .int32) :
    Delivers c (arithInt op lhs rhs types) σ fun _ σ' => σ'.Clean ∧
      σ'.frame.sp = σ.frame.sp - 2 + 1 := by
  refine delivers_ready fun hready _ => ?_
  refine (copyData_delivers hσ.lent (by decide) hl (by rcases htl with h | h <;> simp [h])).bind ?_
  rintro payload σ₁ ⟨h₁, hpayload, -⟩
  refine delivers_queryFrame ((readOperand_delivers h₁ (by simp) hr fun hnone => ?_).bind ?_)
  · have hint : σ.frame.int32Constant? rhs = none := by
      simpa [Frame.int32Constant?, h₁.view.constant?_eq] using hnone
    refine ⟨?_, by rcases htr with h | h <;> simp [h]⟩
    cases hc : σ.frame.constant? rhs with
    | none => rfl
    | some v =>
      rw [hready.knownType_of_constant hr hc] at htr
      cases v <;> simp_all [KnownType.ofValue, Frame.int32Constant?]
  rintro ⟨src, pins⟩ σ₂ ⟨h₂, hpins, hsrc⟩
  dsimp only at h₂ hpins hsrc
  refine (intResult_delivers h₂ (by simp; omega) (by simp)).bind ?_
  rintro res σ₃ ⟨h₃, rfl, hwide, htag⟩
  refine delivers_armed h₃ fun _ ha₃ => ?_
  have hv := h₃.view
  refine (guardTag_delivers ha₃ (hv.sp ▸ hl) ?_).andThen fun _ σ₄ ha₄ => ?_
  · rcases htl with h | h <;> simp [hv.knownType, h, KnownType.tag?]
  refine (guardTag_delivers ha₄ (hv.sp ▸ hr) ?_).andThen fun _ σ₅ ha₅ => ?_
  · rcases htr with h | h <;> simp [hv.knownType, h, KnownType.tag?]
  refine (exit_delivers ha₅ ?_).andThen ?_
  · exact ⟨⟨Loans.shape_full _ (by simp), hpayload⟩, hsrc _ _⟩
  rintro - σ₆ ⟨ha₆, -⟩
  refine (completeInt_delivers ha₆
    (Loans.shape_full _ (by simp)) hwide fun r h => (htag r h).1).bind ?_
  rintro - σ₇ ⟨P, ha₇, hP, hPw, hPt⟩
  refine (slowCall_delivers ha₇).bind fun _ σ₈ h₈ => ?_
  refine (unpinAll_delivers pins h₈).bind fun _ σ₉ h₉ => ?_
  refine (popN_delivers h₉ (by rw [h₃.base, h₃.sp]; exact hn)).bind fun _ σ₁₀ h₁₀ => ?_
  refine (pushInt_delivers h₁₀ (by simp) ?_ ?_ ?_).bind fun _ σ₁₁ h₁₁ => ?_
  · exact hP.reg _ (Loans.shape_full _ (by simp))
  · intro r hr
    exact ⟨by simp [hr], hPw r hr⟩
  · intro r hr
    exact ⟨by simpa using (htag r hr).2, by simp [hr], hPt r hr⟩
  have hL : res.release (((((Loans.none.addFull res.payload).addPins pins).addFTemp?
      res.wide).addTemp? res.tag).dropPins pins) = Loans.none := by
    unfold IntResult.release
    cases hw : res.wide with
    | some r => simp [(hwide r hw).2]
    | none => cases ht : res.tag <;> simp
  exact ((rejoin_delivers (hL ▸ h₁₁)).bind fun _ _ h => delivers_pure (h₃.sp ▸ h))

/-- The result of an arithmetic operator replaces its operands. -/
theorem arith_delivers (hσ : σ.Clean) (hn : σ.frame.stackBase + 2 ≤ σ.frame.sp) :
    Delivers c (arith op types) σ fun _ σ' => σ'.Clean ∧ σ'.frame.sp = σ.frame.sp - 2 + 1 := by
  have hl := peek_lt (n := 2) (by decide) hn
  have hr : σ.frame.peek 1 < σ.frame.sp := peek_lt (by decide) (by lia)
  have hstub : Delivers c (emitStubTyped (.arith op) 0 types) σ fun _ σ' =>
      σ'.Clean ∧ σ'.frame.sp = σ.frame.sp - 2 + 1 :=
    (emitStubTyped_delivers (.arith op) hσ hn).mono fun _ _ h => ⟨h.1, h.2.1⟩
  refine delivers_queryFrame ?_
  dsimp only
  split
  · exact (replaceByConstant_delivers hσ hn
      (Value.tag_ne_object (Value.isNumber_number _))).bind fun _ _ h => delivers_pure h
  split
  · exact hstub
  next hnum =>
  split
  · split
    · exact hstub
    · refine arithDouble_delivers hσ hn hl hr ?_ ?_ <;>
        grind [mayBeNumber]
  · next hdouble =>
    refine arithInt_delivers hσ hn hl hr ?_ ?_ <;>
      grind [mayBeNumber, KnownType.isNumber]

/-! ### Unary plus -/

/-- Converting a value of unknown type to a number. -/
theorem posUnknown_delivers {x : Slot} (hσ : σ.Clean) (hn : σ.frame.stackBase < σ.frame.sp)
    (hx : x < σ.frame.sp) (ht : σ.frame.knownType x = .unknown) :
    Delivers c (posUnknown x) σ fun _ σ' => σ'.Clean ∧ σ'.frame.sp = σ.frame.sp := by
  refine (syncEntry_delivers hσ.lent hx).bind fun _ σ₁ h₁ => ?_
  refine delivers_armed h₁ fun _ ha₁ => ?_
  have hv := h₁.view
  refine (guardNumber_delivers ha₁ (hv.sp ▸ hx) (.inl ((hv.knownType x).trans ht))).andThen
    fun _ σ₂ ha₂ => ?_
  refine (slowCall_delivers ha₂).bind fun _ σ₃ h₃ => ?_
  have hn₃ : σ₃.frame.stackBase < σ₃.frame.sp := by rw [h₃.base, h₃.sp, h₁.base, h₁.sp]; exact hn
  refine (delivers_update h₃.waiting (settles_update_comp (pop_settles hn₃)
    (pushSynced_settles _))).bind ?_
  rintro - σ₄ ⟨hr₄, hf₄, hL₄⟩
  have hsp₄ : σ₄.frame.sp = σ.frame.sp := by
    rw [hf₄]
    change σ₃.frame.sp - 1 + 1 = _
    rw [Nat.sub_add_cancel (Nat.one_le_of_lt hn₃), h₃.sp, h₁.sp]
  exact (rejoin_delivers (h₃.reframe hr₄ hsp₄ (hL₄.trans h₃.loans))).bind fun _ _ h =>
    delivers_pure h

/-- A conversion to a number replaces its operand. -/
theorem pos_delivers (hσ : σ.Clean) (hn : σ.frame.stackBase < σ.frame.sp) :
    Delivers c pos σ fun _ σ' => σ'.Clean ∧ σ'.frame.sp = σ.frame.sp := by
  have hsp : σ.frame.sp - 1 + 1 = σ.frame.sp := Nat.sub_add_cancel (Nat.one_le_of_lt hn)
  refine delivers_queryFrame (delivers_read ?_)
  dsimp only
  split
  · exact delivers_pure ⟨hσ, rfl⟩
  · exact delivers_pure ⟨hσ, rfl⟩
  · next v hfold _ _ =>
    refine (replaceByConstant_delivers hσ hn ?_).bind fun _ _ h => delivers_pure (hsp ▸ h)
    obtain ⟨w, -, hw⟩ := Option.bind_eq_some_iff.1 hfold
    cases hpos : c.heap.pos w with
    | error e => simp [hpos, Except.toOption] at hw
    | ok u =>
      simp only [hpos, Except.toOption, Option.some.injEq] at hw
      exact hw ▸ Value.tag_ne_object (Heap.isNumber_pos hpos)
  · next ht => exact posUnknown_delivers hσ hn (peek_lt (by decide) hn) ht
  · exact (emitStub_delivers .pos hσ hn).mono fun _ _ h => hsp ▸ h

/-! ### Increments -/

/-- An increment whose old value has been pushed. -/
theorem bumpKeeping_delivers (hσ : σ.Clean) (hv : σ.frame.varSlot v < σ.frame.stackBase)
    (hn : σ.frame.stackBase < σ.frame.sp) :
    Delivers c (bumpKeeping form v) σ fun _ σ' => σ'.Clean ∧ σ'.frame.sp = σ.frame.sp := by
  refine (pos_delivers hσ hn).precedes.bind ?_
  rintro e σ₁ ⟨⟨hσ₁, hsp₁⟩, hp₁⟩
  refine delivers_bind (nextStep_delivers hσ₁ ?_)
  rw [← hp₁.stackBase, ← hsp₁] at hn
  refine (change_delivers hσ₁ (settles_update_comp
    (pushCopy_settles (s := σ₁.frame.peek 1) rfl (peek_lt (by decide) hn))
    (pushConstant_settles (by simp [Value.tag])))).precedes.bind ?_
  rintro - σ₂ ⟨⟨hσ₂, hf₂, hb₂⟩, hp₂⟩
  have hsp₂ : σ₂.frame.sp = σ₁.frame.sp + 1 + 1 := by
    rw [hf₂, ← Frame.sp_pushCopy]
    rfl
  refine (arith_delivers hσ₂ (by lia)).precedes.bind ?_
  rintro e σ₃ ⟨⟨hσ₃, hsp₃⟩, hp₃⟩
  refine delivers_bind (nextStep_delivers hσ₃ ?_)
  have hb₃ := hp₃.stackBase
  have hb₁ := hp₁.stackBase
  refine (storeVar_delivers hσ₃ (((hp₁.trans hp₂).trans hp₃).varSlot_lt hv)
    (by lia)).precedes.bind ?_
  rintro - σ₄ ⟨⟨hσ₄, hsp₄⟩, hp₄⟩
  have hb₄ := hp₄.stackBase
  refine (change_delivers hσ₄ (pop_settles ?_)).mono ?_
  · simp only [Bool.false_eq_true, if_false] at hsp₄
    lia
  · rintro - σ₅ ⟨hσ₅, hf₅, -⟩
    refine ⟨hσ₅, ?_⟩
    rw [hf₅]
    change σ₄.frame.sp - 1 = _
    simp only [Bool.false_eq_true, if_false] at hsp₄
    lia

/-- Increments and decrements complete their instruction. -/
theorem bump_delivers (hi : c.function.code[c.pc]? = some (.bump form v)) (hσ : σ.Clean)
    (hv : σ.frame.varSlot v < σ.frame.stackBase) :
    Delivers c (bump form v) σ fun r σ' => Completes c σ r.2 σ' := by
  refine delivers_bind (fusable?_delivers fun o ho => ?_)
  dsimp only
  refine absorbIf_delivers (delivers_ready fun hready _ => ?_)
  have hbase := hready.base
  refine (change_delivers hσ (pushCopy_settles (s := σ.frame.varSlot v) rfl
    (Nat.lt_of_lt_of_le hv hbase))).precedes.bind ?_
  rintro - σ₁ ⟨⟨hσ₁, hf₁, hb₁⟩, hp₁⟩
  have hsp₁ : σ₁.frame.sp = σ.frame.sp + 1 := by
    rw [hf₁, ← Frame.sp_pushCopy]
    rfl
  split
  · refine (bumpKeeping_delivers hσ₁ (hp₁.varSlot_lt hv) (by lia)).bind ?_
    rintro - σ₂ ⟨hσ₂, hsp₂⟩
    exact delivers_pure (.single hi hσ₂ (Nat.zero_le _) (hsp₂.trans hsp₁) (by rintro ⟨⟩))
  · refine (change_delivers hσ₁
      (pushConstant_settles (by simp [Value.tag]))).precedes.bind ?_
    rintro - σ₂ ⟨⟨hσ₂, hf₂, hb₂⟩, hp₂⟩
    have hsp₂ : σ₂.frame.sp = σ₁.frame.sp + 1 := by rw [hf₂]; rfl
    refine delivers_bind (stubTypes_delivers fun types _ => ?_)
    refine (arith_delivers hσ₂ (by lia)).precedes.bind ?_
    rintro e σ₃ ⟨⟨hσ₃, hsp₃⟩, hp₃⟩
    refine delivers_bind (nextStep_delivers hσ₃ ?_)
    have hb₃ := hp₃.stackBase
    refine (storeVar_delivers hσ₃ (((hp₁.trans hp₂).trans hp₃).varSlot_lt hv) (by lia)).bind ?_
    rintro - σ₄ ⟨hσ₄, hsp₄⟩
    refine delivers_pure ?_
    by_cases hpop : o = some .pop
    · obtain ⟨hnext, hjump⟩ := ho _ hpop
      simp only [hpop, decide_true, if_true] at hsp₄ ⊢
      refine ⟨hσ₄, ?_, (Context.Falls.zero c).succ hi rfl, hjump, .pop, hnext, by rintro ⟨⟩⟩
      rw [effectOf_succ hi, effectOf_succ hnext, effectOf_zero]
      simp only [Bytecode.Instr.stackEffect, Bytecode.Instr.StackEffect.delta]
      lia
    · simp only [hpop, decide_false, Bool.false_eq_true, if_false] at hsp₄ ⊢
      exact .single hi hσ₄ (Nat.zero_le _) (by simp only [Bytecode.Instr.stackEffect]; lia)
        (by rintro ⟨⟩)

end CompileM

end FastPath
