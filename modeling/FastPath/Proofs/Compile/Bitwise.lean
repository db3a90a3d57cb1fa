import FastPath.Proofs.Compile.Routing

/-!
# What the bitwise emitters deliver

An operand that is not known to be an integer is converted by code in both streams. Which
registers that takes is decided before any code is emitted; `IntPlan.borrow` says what has
been borrowed for it, and `IntPlan.Applies` what its code relies on.
-/

namespace FastPath

theorem BitOp.isNumber_apply (op : BitOp) (a b : Int32) : (op.apply a b).isNumber := by
  cases op <;> first | rfl | exact Value.isNumber_number _

namespace IntPlan

/-- The double temporary of a plan. -/
def ftemp? : IntPlan → Option FReg
  | truncate r => some r
  | ready | tagged _ _ => none

/-- The loans with the double temporary of a plan. -/
def lend (L : Loans) (plan : IntPlan) : Loans :=
  { L with
    ftemps := plan.ftemp?.toList ++ L.ftemps
    ffull := plan.ftemp?.toList ++ L.ffull }

/-- The loans with an operand that may be overwritten. -/
def borrow (L : Loans) (pins : List Reg) (r : Reg) : IntPlan → Loans
  | ready => (L.addPins pins).addFull r
  | plan => ((plan.lend L).addPins pins).addTemp r

/-- The temporary of an operand that is only read. -/
def temp? : IntPlan → Operand → Option Reg
  | ready, _ => none
  | _, .reg r => some r
  | _, _ => none

/-- The loans with an operand that is only read. -/
def borrowRead (L : Loans) (pins : List Reg) (o : Operand) (plan : IntPlan) : Loans :=
  ((plan.lend L).addPins pins).addTemp? (plan.temp? o)

section Borrow

variable (L : Loans) (pins : List Reg) (r : Reg) (o : Operand) (plan : IntPlan)

@[simp] theorem temps_borrow : (plan.borrow L pins r).temps = r :: L.temps := by
  cases plan <;> rfl

@[simp] theorem pins_borrow : (plan.borrow L pins r).pins = pins ++ L.pins := by
  cases plan <;> rfl

@[simp] theorem ftemps_borrow :
    (plan.borrow L pins r).ftemps = plan.ftemp?.toList ++ L.ftemps := by
  cases plan <;> rfl

@[simp] theorem ffull_borrow : (plan.borrow L pins r).ffull = plan.ftemp?.toList ++ L.ffull := by
  cases plan <;> rfl

@[simp] theorem fpins_borrow : (plan.borrow L pins r).fpins = L.fpins := by
  cases plan <;> rfl

theorem full_borrow_subset : (plan.borrow L pins r).full ⊆ r :: L.full := by
  cases plan with
  | ready => exact List.Subset.refl _
  | truncate src | tagged s payload => exact List.subset_cons_self _ _

theorem count_borrow : (plan.borrow L pins r).count = L.count + pins.length + 1 := by
  simp only [Loans.count, temps_borrow, pins_borrow, List.length_cons, List.length_append]
  omega

theorem fcount_borrow_le : (plan.borrow L pins r).fcount ≤ L.fcount + 1 := by
  cases h : plan.ftemp? <;> simp [Loans.fcount, h]
  omega

theorem fcount_borrowRead_le : (plan.borrowRead L pins o).fcount ≤ L.fcount + 1 := by
  cases h : plan.ftemp? <;>
    simp [borrowRead, lend, Loans.fcount, Loans.addPins, Loans.addTemp?, h]
  omega

theorem shape_borrowRead (f : Frame) :
    ((plan.borrowRead L pins o).shape f).Covers (L.shape f) :=
  Loans.shape_mono f (List.subset_append_right _ _) (List.Subset.refl _) (List.Subset.refl _)
    (List.subset_append_right _ _)

end Borrow

/-- The code of the plan reads registers of the shape; without any code the destination has
contents already. -/
def Applies (f : Frame) (P : Shape) (dst : Reg) : IntPlan → Prop
  | ready => P.reg dst
  | truncate r => (P.freg r ∧ r.Valid) ∧ dst.Valid
  | tagged s payload => P.reg payload ∧ (s < f.sp ∧ f.knownType s = .unknown) ∧ dst.Valid

variable {plan : IntPlan} {f f' : Frame} {P P' : Shape}

theorem Applies.mono {dst : Reg} (h : plan.Applies f P dst) (hf : f.SameView f')
    (hP : P'.Covers P) :
    plan.Applies f' P' dst := by
  cases plan with
  | ready => exact hP.reg dst h
  | truncate r => exact ⟨⟨hP.freg r h.1.1, h.1.2⟩, h.2⟩
  | tagged s payload =>
    exact ⟨hP.reg payload h.1, ⟨hf.sp ▸ h.2.1.1, (hf.knownType s).trans h.2.1.2⟩, h.2.2⟩

/-- After the code of the plan the operand can be read. -/
def Supplies (f : Frame) (P : Shape) (plan : IntPlan) : Operand → Prop
  | .reg r => plan.Applies f P r
  | .imm _ => plan = ready
  | _ => False

theorem Supplies.mono {o : Operand} (h : plan.Supplies f P o) (hf : f.SameView f')
    (hP : P'.Covers P) : plan.Supplies f' P' o := by
  cases o with
  | reg r => exact Applies.mono h hf hP
  | imm w | tag s | payload s => exact h

end IntPlan

namespace CompileM

variable {c : Context} {σ : Sketch} {f : Frame} {L : Loans} {P : Shape} {js : List Jump}

/-! ### Conversions -/

variable {S : Shape} {ss : List (Jump × Shape)} {ts : List (Label × Shape)} {src : FReg} {dst : Reg}
  {plan : IntPlan} {s : Slot} {o : Operand} {op : BitOp} {res : IntResult}

/-- Moving a number by 2^32 leaves it in its register. -/
theorem moveTowardsZero_delivers {w : Bool} (h : σ.Routing f L P S ss ts js w false)
    (hsrc : S.freg src) (hvalid : src.Valid) :
    AsmM.Delivers c.Jumps c.slots (moveTowardsZero src) σ fun _ σ' => ∃ S' : Shape,
      σ'.Routing f L P S' ss ts js w false ∧ S'.Covers S ∧ S'.freg src := by
  refine (h.emit_slow rfl rfl ?_).bind fun _ σ₁ h₁ => ?_
  · exact FReg.scratch_valid
  refine (h₁.branch_slow ?_).bind fun negative σ₂ h₂ => ?_
  · exact ⟨.inr hsrc, .inl rfl⟩
  refine (h₂.emit_slow rfl rfl ?_).bind fun _ σ₃ h₃ => ?_
  · exact FReg.scratch_valid
  refine (h₃.branch_slow ?_).bind fun positive σ₄ h₄ => ?_
  · trivial
  -- the number to add is in the scratch register on both ways
  refine (h₄.label_slow (S.withFReg .scratch) (Shape.all_covers _)).bind fun below σ₅ h₅ => ?_
  refine (h₅.link (.swap _ _ _) (.tail _ (.head _)) (.head _) (.refl _)).bind fun _ σ₆ h₆ => ?_
  refine (h₆.emit_slow rfl rfl ?_).bind fun _ σ₇ h₇ => ?_
  · exact FReg.scratch_valid
  refine (h₇.label_slow (S.withFReg .scratch) (Shape.withFReg_covers _ _)).bind
    fun add σ₈ h₈ => ?_
  refine (h₈.link (.refl _) (.head _) (.head _) (Shape.withFReg_covers _ _)).bind fun _ σ₉ h₉ => ?_
  refine (h₉.emit_slow rfl rfl ?_).mono fun _ σ' h' => ⟨_, h'.mono ?_ ?_, ?_, .inl rfl⟩
  · exact ⟨⟨.inr hsrc, .inl rfl⟩, hvalid⟩
  · exact fun _ => .tail _ ∘ .tail _
  · exact fun _ => .tail _ ∘ .tail _
  · exact (Shape.withFReg_covers (S.withFReg .scratch) src).trans (S.withFReg_covers .scratch)

/-- A truncation that failed is tried once more, out of line. -/
theorem retryTruncation_delivers {T : Shape} {w : Bool} {failed : Jump} {done : Label}
    (h : σ.Routing f L P Shape.all ss ts (failed :: js) w false) (hfailed : (failed, S) ∈ ss)
    (hdone : (done, T) ∈ ts) (hS : S.Covers f.bound) (hsrc : S.freg src) (hvalid : src.Valid)
    (hdst : dst.Valid) (hT : (S.withReg dst).Covers T) :
    AsmM.Delivers c.Jumps c.slots (retryTruncation failed src dst done) σ fun _ σ' =>
      σ'.Routing f L P Shape.all [] [] js true false := by
  refine (h.label_slow S (Shape.all_covers S)).bind fun start σ₁ h₁ => ?_
  refine (h₁.link (.refl _) hfailed (.head _) (.refl S)).bind fun _ σ₂ h₂ => ?_
  refine (moveTowardsZero_delivers h₂ hsrc hvalid).bind ?_
  rintro _ σ₃ ⟨S', h₃, hcovers, hmoved⟩
  refine (h₃.branch_slow ?_).bind fun inexact σ₄ h₄ => ?_
  · exact ⟨hmoved, hdst⟩
  refine (h₄.branch_slow ?_).bind fun back σ₅ h₅ => ?_
  · trivial
  refine (h₅.linkExit (.swap _ _ _) (.tail _ (.head _)) (hcovers.trans hS)).bind fun _ σ₆ h₆ => ?_
  exact (h₆.link (.refl _) (.head _) (.tail _ hdone) ((hcovers.withReg dst).trans hT)).mono
    fun _ σ' h' => h'.forget

/-- After a plan has been applied, its register has contents. -/
theorem applyPlan_delivers (h : σ.Armed f L P js) (hP : P.Covers (L.shape f))
    (hplan : plan.Applies f P dst) :
    Delivers c (liftM (applyPlan plan dst)) σ fun _ σ' => ∃ P' : Shape, σ'.Armed f L P' js ∧
      P'.Covers P ∧ P'.reg dst := by
  cases plan with
  | ready => exact delivers_pure ⟨P, h, .refl P, hplan⟩
  | truncate src =>
    obtain ⟨⟨hsrc, hvalid⟩, hdst⟩ := hplan
    have hdone : (P.withReg dst).Covers (L.shape f) := (P.withReg_covers dst).trans hP
    refine delivers_asm (((h.routing hP).branch_fast ?_).bind fun failed σ₁ h₁ => ?_)
    · exact ⟨hsrc, hdst⟩
    refine (h₁.label_fast (P.withReg dst) (.refl _) hdone).bind fun done σ₂ h₂ => ?_
    refine (retryTruncation_delivers h₂ (.head _) (.head _) (h.routing hP).bound hsrc hvalid hdst
      (.refl _)).mono fun _ σ₃ h₃ => ⟨_, h₃.armed, P.withReg_covers dst, .inl rfl⟩
  | tagged slot payload =>
    obtain ⟨hpayload, ⟨hs, ht⟩, hdst⟩ := hplan
    have hdone : (P.withReg dst).Covers (L.shape f) := (P.withReg_covers dst).trans hP
    have hbound := (h.routing hP).bound
    refine delivers_asm (((h.routing hP).tagOperand hs ht).bind ?_)
    rintro tag σ₁ ⟨h₁, htag⟩
    have htag : tag.Reads (f.limit c.slots) P := htag.mono (Nat.le_refl _) hbound
    refine (h₁.branch_fast ?_).bind fun notInt σ₂ h₂ => ?_
    · exact ⟨htag, trivial⟩
    refine (h₂.emit_fast rfl rfl ?_).bind fun _ σ₃ h₃ => ?_
    · exact ⟨hpayload, hdst⟩
    refine (h₃.label_fast (P.withReg dst) (.refl _) hdone).bind fun done σ₄ h₄ => ?_
    refine (h₄.label_slow P (Shape.all_covers P)).bind fun start σ₅ h₅ => ?_
    refine (h₅.link (.refl _) (.head _) (.head _) (.refl P)).bind fun _ σ₆ h₆ => ?_
    refine (h₆.branch_slow ?_).bind fun notDouble σ₇ h₇ => ?_
    · exact ⟨htag, trivial⟩
    refine (h₇.emit_slow rfl rfl ?_).bind fun _ σ₈ h₈ => ?_
    · exact ⟨hpayload, FReg.scratch_valid⟩
    refine (h₈.branch_slow ?_).bind fun failed σ₉ h₉ => ?_
    · exact ⟨.inl rfl, hdst⟩
    refine (h₉.branch_slow ?_).bind fun back σ₁₀ h₁₀ => ?_
    · trivial
    have hscratch := P.withFReg_covers .scratch
    refine (h₁₀.linkExit (.trans (.cons _ (.swap _ _ _)) (.swap _ _ _))
      (.tail _ (.tail _ (.head _))) hbound).bind fun _ σ₁₁ h₁₁ => ?_
    refine (h₁₁.linkExit (.swap _ _ _) (.tail _ (.head _)) (hscratch.trans hbound)).bind
      fun _ σ₁₂ h₁₂ => ?_
    exact (h₁₂.link (.refl _) (.head _) (.tail _ (.head _)) (hscratch.withReg dst)).mono
      fun _ σ' h' => ⟨_, h'.armed, P.withReg_covers dst, .inl rfl⟩

/-- The registers for converting a number or a value of unknown type. -/
theorem planConversion_delivers (h : σ.Lent f L) (hroom : L.count + 1 < Reg.count)
    (hfroom : L.fcount + 1 < FReg.allocatable) (hs : s < f.sp) (hc : f.constant? s = none)
    (ht : f.knownType s = .double ∨ f.knownType s = .unknown) :
    Delivers c (liftM (planConversion s)) σ fun x σ' =>
      σ'.Lent f (((x.2.1.lend L).addPins x.2.2).addTemp x.1) ∧ x.2.2.length ≤ 1 ∧
      x.1 ∉ L.temps ∧ x.2.1 ≠ .ready ∧ (∀ r, x.2.1.ftemp? = some r → r ∉ L.ftemps) ∧
      ∀ g, x.2.1.Applies f ((((x.2.1.lend L).addPins x.2.2).addTemp x.1).shape g) x.1 := by
  unfold planConversion
  rw [liftM_frame_bind]
  refine delivers_queryTracker ?_
  split
  · next hk =>
    rw [liftM_frame_bind]
    refine (copyNumber_delivers h (by omega) hfroom hs
      (.inr (by rw [← h.view.knownType s, hk]; rfl))).bind ?_
    rintro src σ₁ ⟨h₁, hsrc, hne⟩
    rw [liftM_frame_bind]
    refine (alloc_delivers h₁ (show L.count < _ by omega)).bind ?_
    rintro dst σ₂ ⟨h₂, hdst, hfresh⟩
    refine delivers_pure
      ⟨h₂, Nat.zero_le _, hfresh, nofun, by simpa [IntPlan.ftemp?] using hne, fun g => ?_⟩
    exact ⟨⟨Loans.shape_ffull _ List.mem_cons_self, hsrc⟩, hdst⟩
  · next hk =>
    have hunknown : f.knownType s = .unknown := ht.resolve_left fun hd =>
      hk ((h.view.knownType s).trans hd)
    rw [liftM_frame_bind]
    refine (dataReg_delivers h (by omega) hs hc (by simp [hunknown])).bind ?_
    rintro payload σ₁ ⟨h₁, hpayload⟩
    rw [liftM_frame_bind]
    refine (pin_delivers h₁ hpayload).bind ?_
    rintro pins σ₂ ⟨h₂, hpins, hmem⟩
    rw [liftM_frame_bind]
    refine (alloc_delivers h₂ (by rw [Loans.count_addPins]; omega)).bind ?_
    rintro dst σ₃ ⟨h₃, hdst, hfresh⟩
    refine delivers_pure ⟨h₃, hpins, hfresh, nofun, nofun, fun g => ?_⟩
    exact ⟨Loans.shape_pin _ hmem, ⟨hs, hunknown⟩, hdst⟩

/-- An operand that can be converted has a type that decides how. -/
theorem cases_of_isIntConvertible (h : isIntConvertible f s) (hn : f.numberConstant? s = none) :
    f.constant? s = none ∧
      (f.knownType s = .int32 ∨ f.knownType s = .double ∨ f.knownType s = .unknown) := by
  unfold isIntConvertible at h
  unfold Frame.numberConstant? at hn
  cases hc : f.constant? s with
  | some v => cases v <;> simp_all [Value.isNumber, Value.double?]
  | none =>
    refine ⟨rfl, ?_⟩
    cases hk : f.knownType s <;> simp_all

section

variable (h : σ.Lent f L) (hroom : L.count + 1 < Reg.count)
  (hfroom : L.fcount + 1 < FReg.allocatable) (hs : s < f.sp) (hconv : isIntConvertible f s)
include h hroom hfroom hs hconv

/-- The registers for an operand that is overwritten. -/
theorem planOwned_delivers :
    Delivers c (liftM (planOwned s)) σ fun x σ' =>
      σ'.Lent f (x.2.1.borrow L x.2.2 x.1) ∧ x.2.2.length ≤ 1 ∧ x.1.Valid ∧
      ∀ g, x.2.1.Applies f ((x.2.1.borrow L x.2.2 x.1).shape g) x.1 := by
  unfold planOwned
  rw [liftM_frame_bind]
  refine delivers_queryTracker ?_
  have hnum : σ.frame.numberConstant? s = f.numberConstant? s := by
    simp only [Frame.numberConstant?, h.view.constant?_eq]
  rw [hnum, h.view.knownType s]
  split
  · rw [liftM_frame_bind]
    refine (loadTemp_delivers _ h (by omega)).bind ?_
    rintro r σ₁ ⟨h₁, hr, -⟩
    exact delivers_pure ⟨h₁, Nat.zero_le _, hr, fun g => Loans.shape_full _ List.mem_cons_self⟩
  · next hk =>
    rw [liftM_frame_bind]
    refine (copyData_delivers h hroom hs (by simp [hk])).bind ?_
    rintro r σ₁ ⟨h₁, hr, -⟩
    exact delivers_pure ⟨h₁, Nat.zero_le _, hr, fun g => Loans.shape_full _ List.mem_cons_self⟩
  · next hn hint =>
    obtain ⟨hc, ht⟩ := cases_of_isIntConvertible hconv hn
    refine (planConversion_delivers h hroom hfroom hs hc (ht.resolve_left (hint ·))).mono ?_
    rintro ⟨r, plan, pins⟩ σ₁ ⟨h₁, hpins, hr, hne, -, happ⟩
    cases plan with
    | ready => exact absurd rfl hne
    | truncate src => exact ⟨h₁, hpins, (happ f).2, happ⟩
    | tagged s payload => exact ⟨h₁, hpins, (happ f).2.2, happ⟩

/-- The registers for an operand that is only read. -/
theorem planRead_delivers :
    Delivers c (liftM (planRead s)) σ fun x σ' =>
      σ'.Lent f (x.2.1.borrowRead L x.2.2 x.1) ∧ x.2.2.length ≤ 1 ∧
      (∀ r, x.2.1.temp? x.1 = some r → r ∉ L.temps) ∧
      (∀ r, x.2.1.ftemp? = some r → r ∉ L.ftemps) ∧
      ∀ g, x.2.1.Supplies f ((x.2.1.borrowRead L x.2.2 x.1).shape g) x.1 := by
  unfold planRead
  rw [liftM_frame_bind]
  refine delivers_queryTracker ?_
  have hnum : σ.frame.numberConstant? s = f.numberConstant? s := by
    simp only [Frame.numberConstant?, h.view.constant?_eq]
  rw [hnum, h.view.knownType s]
  split
  · exact delivers_pure ⟨h, Nat.zero_le _, nofun, nofun, fun g => rfl⟩
  · next hn hk =>
    obtain ⟨hc, -⟩ := cases_of_isIntConvertible hconv hn
    rw [liftM_frame_bind]
    refine (dataReg_delivers h (by omega) hs hc (by simp [hk])).bind ?_
    rintro r σ₁ ⟨h₁, hr⟩
    rw [liftM_frame_bind]
    refine (pin_delivers h₁ hr).bind ?_
    rintro pins σ₂ ⟨h₂, hpins, hmem⟩
    exact delivers_pure ⟨h₂, hpins, nofun, nofun, fun g => Loans.shape_pin _ hmem⟩
  · next hn hint =>
    obtain ⟨hc, ht⟩ := cases_of_isIntConvertible hconv hn
    rw [liftM_frame_bind]
    refine (planConversion_delivers h hroom hfroom hs hc (ht.resolve_left (hint ·))).bind ?_
    rintro ⟨r, plan, pins⟩ σ₁ ⟨h₁, hpins, hr, hne, hfresh, happ⟩
    refine delivers_pure ?_
    cases plan with
    | ready => exact absurd rfl hne
    | truncate src | tagged s payload =>
      exact ⟨h₁, hpins, fun q hq => Option.some.inj hq ▸ hr, hfresh, happ⟩

/-- The registers for the right operand. -/
theorem planRight_delivers {shared : Bool} {lhs : Reg} :
    Delivers c (liftM (planRight shared lhs s)) σ fun x σ' =>
      σ'.Lent f (x.2.1.borrowRead L x.2.2 x.1) ∧ x.2.2.length ≤ 1 ∧
      (∀ r, x.2.1.temp? x.1 = some r → r ∉ L.temps) ∧
      (∀ r, x.2.1.ftemp? = some r → r ∉ L.ftemps) ∧
      ∀ g, x.2.1.Supplies f (((x.2.1.borrowRead L x.2.2 x.1).shape g).withReg lhs) x.1 := by
  unfold planRight
  split
  · exact delivers_pure ⟨h, Nat.zero_le _, nofun, nofun, fun g => .inl rfl⟩
  · refine (planRead_delivers h hroom hfroom hs hconv).mono ?_
    rintro ⟨o, plan, pins⟩ σ₁ ⟨h₁, hpins, htemp, hftemp, hsup⟩
    exact ⟨h₁, hpins, htemp, hftemp, fun g => (hsup g).mono (.refl f) (Shape.withReg_covers _ _)⟩

end

theorem applyRead_delivers (h : σ.Armed f L P js) (hP : P.Covers (L.shape f))
    (hsup : plan.Supplies f P o) :
    Delivers c (liftM (applyRead o plan)) σ fun _ σ' => ∃ P' : Shape, σ'.Armed f L P' js ∧
      P'.Covers P ∧ o.Reads (f.limit c.slots) P' := by
  cases o with
  | reg r => exact applyPlan_delivers h hP hsup
  | imm w => exact delivers_pure ⟨P, h, .refl P, trivial⟩
  | tag s | payload s => exact hsup.elim

/-! ### Results -/

/-- The registers for the result. -/
theorem bitResult_delivers {payload : Reg} {wide : Bool} (h : σ.Lent f L)
    (hroom : L.fcount < FReg.allocatable) :
    Delivers c (liftM (bitResult payload wide)) σ fun res σ' =>
      σ'.Lent f (L.addFTemp? res.wide) ∧ res.payload = payload ∧ res.tag = none ∧
      res.wide.isSome = wide ∧ ∀ r, res.wide = some r → r.Valid ∧ r ∉ L.ftemps := by
  unfold bitResult
  split
  · next hwide =>
    rw [liftM_frame_bind]
    refine (allocDouble_delivers h hroom).bind ?_
    rintro r σ₁ ⟨h₁, hr⟩
    exact delivers_pure ⟨h₁, rfl, rfl, hwide.symm, fun q hq => Option.some.inj hq ▸ hr⟩
  · next hwide => exact delivers_pure ⟨h, rfl, rfl, by simpa using hwide, nofun⟩

theorem emitBitOp_delivers {r : Reg} (h : σ.Armed f L P js) (hr : P.reg r) (hvalid : r.Valid)
    (ho : o.Reads (f.limit c.slots) P) :
    Delivers c (liftM (emitBitOp op r o)) σ fun _ σ' => σ'.Armed f L P js := by
  unfold emitBitOp
  split
  · exact delivers_pure h
  · refine (emit_delivers h rfl rfl ?_).mono fun _ _ h' => h'.1.mono (P.withReg_covers r)
    exact ⟨⟨hr, ho⟩, hvalid⟩

/-- An unsigned result is widened, or a guard waits. -/
theorem fitUnsigned_delivers (h : σ.Armed f L P js) (hr : P.reg res.payload)
    (hwide : ∀ r, res.wide = some r → r.Valid) :
    Delivers c (liftM (fitUnsigned res)) σ fun _ σ' => ∃ P' : Shape, σ'.Armed f L P' js ∧
      P'.Covers P ∧ ∀ r, res.wide = some r → P'.freg r := by
  unfold fitUnsigned
  split
  · next r hw =>
    refine (emit_delivers h rfl rfl ?_).mono fun _ _ h' =>
      ⟨_, h'.1, P.withFReg_covers r, fun q hq => ?_⟩
    · exact ⟨hr, hwide r hw⟩
    · exact .inl (Option.some.inj (hq.symm.trans hw))
  · next hw =>
    rw [liftM_bind]
    refine (exit_delivers h ?_).mono fun _ _ h' => ⟨P, h'.1, .refl P, fun q hq => ?_⟩
    · exact ⟨hr, trivial⟩
    · rw [hw] at hq
      cases hq

/-! ### Giving back -/

variable {slow : Bool} {b n : Nat}

theorem freePlan_delivers (h : σ.Releasing slow b n L P)
    (hplan : ∀ r, plan.ftemp? = some r → r ∈ L.ftemps) :
    Delivers c (liftM (freePlan plan)) σ fun _ σ' =>
      σ'.Releasing slow b n (L.dropFTemp? plan.ftemp?) P := by
  cases plan with
  | truncate r =>
    rw [IntPlan.ftemp?, Loans.dropFTemp?_some]
    exact freeDouble_delivers h (hplan r rfl)
  | ready | tagged s payload =>
    rw [IntPlan.ftemp?, Loans.dropFTemp?_none]
    exact delivers_pure h

/-- What was borrowed for reading is given back. -/
theorem releaseRead_delivers (h : σ.Releasing slow b n L P) (hsup : plan.Supplies f Shape.all o)
    (hplan : ∀ r, plan.ftemp? = some r → r ∈ L.ftemps)
    (htemp : ∀ r, plan.temp? o = some r → r ∈ L.temps) :
    Delivers c (releaseRead o plan) σ fun _ σ' =>
      σ'.Releasing slow b n ((L.dropFTemp? plan.ftemp?).dropTemp? (plan.temp? o)) P := by
  refine (freePlan_delivers h hplan).bind fun _ σ₁ h₁ => ?_
  have hfree : ∀ r, plan.temp? o = some r → Delivers c (liftM (FrameM.free r)) σ₁ fun _ σ' =>
      σ'.Releasing slow b n ((L.dropFTemp? plan.ftemp?).dropTemp? (plan.temp? o)) P := by
    intro r hr
    rw [hr, Loans.dropTemp?_some]
    exact free_delivers h₁ (htemp r hr)
  cases plan with
  | ready =>
    rw [IntPlan.temp?, Loans.dropTemp?_none]
    exact delivers_pure h₁
  | truncate src =>
    cases o with
    | reg r => exact hfree r rfl
    | imm w => cases hsup
    | tag s | payload s => exact hsup.elim
  | tagged s payload =>
    cases o with
    | reg r => exact hfree r rfl
    | imm w => cases hsup
    | tag s | payload s => exact hsup.elim

/-! ### Operators -/

attribute [local simp] IntPlan.borrowRead IntPlan.lend Loans.addFTemp? Loans.addTemp? Loans.addPins
  Loans.dropTemp? Loans.dropFTemp? Loans.dropPins

/-- After all operands have been given back nothing is on loan. -/
theorem release_operands (lplan rplan : IntPlan) (lpins rpins : List Reg) (o : Operand)
    (htag : res.tag = none) :
    res.release ((((((rplan.borrowRead (lplan.borrow Loans.none lpins res.payload) rpins
      o).addFTemp? res.wide).dropFTemp? rplan.ftemp?).dropTemp? (rplan.temp? o)).dropFTemp?
      lplan.ftemp?).dropPins (lpins ++ rpins)) = Loans.none := by
  have hfull : ∀ r ∈ (lplan.borrow Loans.none lpins res.payload).full, r = res.payload :=
    fun r hr => List.mem_singleton.1 (IntPlan.full_borrow_subset _ _ _ _ hr)
  unfold IntResult.release
  rw [htag]
  cases res.wide <;> simp [Loans.dropTemp, Loans.dropFTemp, Loans.none] at hfull ⊢ <;> grind

/-- The inline code of a bitwise operator on two slots. -/
theorem bitOpInline_delivers {lhs rhs : Slot} {shift : Option Int32} (hσ : σ.Clean)
    (hn : σ.frame.stackBase + 2 ≤ σ.frame.sp) (hl : lhs < σ.frame.sp) (hr : rhs < σ.frame.sp)
    (hcl : isIntConvertible σ.frame lhs) (hcr : isIntConvertible σ.frame rhs) :
    Delivers c (bitOpInline op lhs rhs shift) σ fun _ σ' => σ'.Clean ∧
      σ'.frame.sp = σ.frame.sp - 2 + 1 := by
  refine delivers_queryFrame (delivers_bind (pushedTypes_delivers fun types => ?_))
  extract_lets isUnsigned shared finish
  clear_value isUnsigned shared
  refine (planOwned_delivers hσ.lent (by decide) (by decide) hl hcl).bind ?_
  rintro ⟨payload, lplan, lpins⟩ σ₁ ⟨h₁, hlpins, hpayload, hlapp⟩
  dsimp only at h₁ hlpins hpayload hlapp ⊢
  have hcount : (lplan.borrow Loans.none lpins payload).count + 1 < Reg.count := by
    rw [IntPlan.count_borrow]
    change 0 + _ + 1 + 1 < 8
    omega
  have hfcount : (lplan.borrow Loans.none lpins payload).fcount + 1 < FReg.allocatable :=
    Nat.lt_of_le_of_lt (Nat.succ_le_succ (IntPlan.fcount_borrow_le ..)) (by decide)
  refine (planRight_delivers h₁ hcount hfcount hr hcr).bind ?_
  rintro ⟨o, rplan, rpins⟩ σ₂ ⟨h₂, hrpins, htemp, hftemp, hsup⟩
  dsimp only at h₂ hrpins htemp hftemp hsup ⊢
  refine (bitResult_delivers h₂ (Nat.lt_of_le_of_lt (IntPlan.fcount_borrowRead_le ..)
    hfcount)).bind ?_
  rintro res σ₃ ⟨h₃, rfl, htag, hwide, hfresh⟩
  refine delivers_armed h₃ fun _ ha₃ => ?_
  have hv := h₃.view
  refine (applyPlan_delivers ha₃ (.refl _) ((hlapp σ₃.frame).mono hv
    (IntPlan.shape_borrowRead _ rpins o rplan _))).bind ?_
  rintro - σ₄ ⟨P₄, ha₄, hP₄, hpay₄⟩
  have hsup₄ : rplan.Supplies σ₃.frame P₄ o := (hsup σ₃.frame).mono hv
    ⟨fun r hr => hr.elim (fun h => h ▸ hpay₄) (hP₄.reg r), hP₄.freg⟩
  refine (applyRead_delivers ha₄ hP₄ hsup₄).bind ?_
  rintro - σ₅ ⟨P₅, ha₅, hP₅, ho⟩
  have hpay₅ := hP₅.reg _ hpay₄
  refine (emitBitOp_delivers ha₅ hpay₅ hpayload ho).bind fun _ σ₆ ha₆ => ?_
  refine delivers_when (R := fun σ' => ∃ P' : Shape, σ'.Armed σ₃.frame _ P' [] ∧ P'.Covers P₅ ∧
    ∀ r, res.wide = some r → P'.freg r)
    (fun _ => fitUnsigned_delivers ha₆ hpay₅ fun r hr => (hfresh r hr).1)
    (fun hu => ⟨P₅, ha₆, .refl P₅, fun r hr => ?_⟩) ?_
  · simp [hr, hu] at hwide
  rintro σ₇ ⟨P₇, ha₇, hP₇, hwide₇⟩
  refine delivers_queryExits (slowCall?_delivers ha₇ fun σ₈ h₈ => ?_)
  refine (releaseRead_delivers h₈ (hsup₄.mono (.refl _) (Shape.all_covers P₄)) ?_ ?_).bind
    fun _ σ₉ h₉ => ?_
  · intro r hr
    simp [hr]
  · intro r hr
    simp [hr]
  refine (freePlan_delivers h₉ ?_).bind fun _ σ₁₀ h₁₀ => ?_
  · intro r hr
    have hne : some r ≠ rplan.ftemp? := fun h => hftemp r h.symm (by simp [hr])
    simp [hr, hne]
  refine (unpinAll_delivers _ h₁₀).bind fun _ σ₁₁ h₁₁ => ?_
  refine (popN_delivers h₁₁ (by rw [h₃.base, h₃.sp]; exact hn)).bind fun _ σ₁₂ h₁₂ => ?_
  refine (pushInt_delivers h₁₂ ?_ ?_ ?_ ?_).bind fun _ σ₁₃ h₁₃ => ?_
  · have hne : some res.payload ≠ rplan.temp? o := fun h => htemp _ h.symm (by simp)
    simp [hne]
  · exact hP₇.reg _ hpay₅
  · intro r hr
    refine ⟨?_, hwide₇ r hr⟩
    have hne := (hfresh r hr).2
    simp only [IntPlan.borrowRead, Loans.addTemp?, Loans.addPins, IntPlan.lend, List.mem_append,
      Option.mem_toList, IntPlan.ftemps_borrow, not_or] at hne
    have hright : some r ≠ rplan.ftemp? := fun h => hne.1 h.symm
    have hleft : some r ≠ lplan.ftemp? := fun h => hne.2.1 h.symm
    simp [hr, hright, hleft]
  · simp [htag]
  rw [release_operands lplan rplan lpins rpins o htag] at h₁₃
  exact (rejoin?_delivers h₁₃).mono fun _ _ h => h₃.sp ▸ h.2

/-- The result of a bitwise operator replaces its operands. -/
theorem bitOp_delivers (hσ : σ.Clean) (hn : σ.frame.stackBase + 2 ≤ σ.frame.sp) :
    Delivers c (bitOp op) σ fun _ σ' => σ'.Clean ∧ σ'.frame.sp = σ.frame.sp - 2 + 1 := by
  have hl := peek_lt (n := 2) (by decide) hn
  have hr : σ.frame.peek 1 < σ.frame.sp := peek_lt (by decide) (by lia)
  have hstub : Delivers c (emitStub (.bit op) 0) σ fun _ σ' =>
      σ'.Clean ∧ σ'.frame.sp = σ.frame.sp - 2 + 1 := emitStub_delivers (.bit op) hσ hn
  refine delivers_queryFrame ?_
  dsimp only
  split
  · exact (replaceByConstant_delivers hσ hn
      (Value.tag_ne_object (BitOp.isNumber_apply ..))).bind fun _ _ h => delivers_pure h
  split
  · exact hstub
  next hconv =>
  simp only [Bool.or_eq_true, Bool.not_eq_true', not_or, Bool.not_eq_false] at hconv
  split
  · exact hstub
  split
  · exact bitOpInline_delivers hσ hn hr hl hconv.2 hconv.1
  · exact bitOpInline_delivers hσ hn hl hr hconv.1 hconv.2

/-- The complement replaces its operand. -/
theorem bitNot_delivers (hσ : σ.Clean) (hn : σ.frame.stackBase < σ.frame.sp) :
    Delivers c bitNot σ fun _ σ' => σ'.Clean ∧ σ'.frame.sp = σ.frame.sp := by
  have hsp : σ.frame.sp - 1 + 1 = σ.frame.sp := Nat.sub_add_cancel (Nat.one_le_of_lt hn)
  have hx := peek_lt (n := 1) (by decide) hn
  refine delivers_queryFrame ?_
  dsimp only
  split
  · exact (replaceByConstant_delivers hσ hn (by simp [Value.tag])).bind fun _ _ h =>
      delivers_pure (hsp ▸ h)
  split
  · exact (emitStub_delivers .bitNot hσ hn).mono fun _ _ h => hsp ▸ h
  next hconv =>
  refine (planOwned_delivers hσ.lent (by decide) (by decide) hx (by simpa using hconv)).bind ?_
  rintro ⟨res, plan, pins⟩ σ₁ ⟨h₁, -, hres, happ⟩
  dsimp only at h₁ hres happ ⊢
  refine delivers_armed h₁ fun _ ha₁ => ?_
  refine (applyPlan_delivers ha₁ (.refl _) ((happ σ₁.frame).mono h₁.view (.refl _))).bind ?_
  rintro - σ₂ ⟨P, ha₂, hP, hreg⟩
  refine (emit_delivers ha₂ rfl rfl ?_).bind ?_
  · exact ⟨hreg, hres⟩
  rintro - σ₃ ⟨ha₃, -⟩
  refine delivers_queryExits (slowCall?_delivers ha₃ fun σ₄ h₄ => ?_)
  refine (freePlan_delivers h₄ (by simp +contextual)).bind fun _ σ₅ h₅ => ?_
  refine (unpinAll_delivers _ h₅).bind fun _ σ₆ h₆ => ?_
  refine (pop_delivers h₆ (by rw [h₁.base, h₁.sp]; exact hn)).bind fun _ σ₇ h₇ => ?_
  refine (pushTyped_delivers h₇ rfl (by simp) (.inl rfl)).bind fun _ σ₈ h₈ => ?_
  have hL : (((plan.borrow Loans.none pins res).dropFTemp? plan.ftemp?).dropPins pins).dropTemp
      res = Loans.none := by
    have hfull : ∀ r ∈ (plan.borrow Loans.none pins res).full, r = res :=
      fun r hr => List.mem_singleton.1 (IntPlan.full_borrow_subset _ _ _ _ hr)
    simp [Loans.dropTemp, Loans.none] at hfull ⊢
    grind
  rw [hL] at h₈
  exact (rejoin?_delivers h₈).mono fun _ _ h => by rw [h₁.sp, hsp] at h; exact h.2

end CompileM

end FastPath
