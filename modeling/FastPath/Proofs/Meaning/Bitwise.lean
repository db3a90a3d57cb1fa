import FastPath.Proofs.Meaning.Conversion

/-!
# Bitwise operators

On converted operands the machine computes the word that the generic operation computes. An unsigned
shift may leave the range of integers; its result is then a double.

## Main results

* `CompileM.bitOp_produces`, `CompileM.bitNot_produces`: the bitwise operators.
-/

namespace FastPath

open Frame AsmM

attribute [local instance] Cell.written

namespace Stub

variable {a : Value}

theorem apply_bit_number (op : BitOp) {b : Value} (ha : a.isNumber) (hb : b.isNumber) (h : Heap) :
    (bit op).apply [a, b] h = .ok (op.apply a.asInt32 b.asInt32) h := by
  obtain ⟨x, hx⟩ := Value.isNumber_iff_double?.1 ha
  obtain ⟨y, hy⟩ := Value.isNumber_iff_double?.1 hb
  change HeapM.look (·.bitOp op a b) h = _
  rw [HeapM.look_run, Heap.bitOp, Heap.toInt32_number hx, Heap.toInt32_number hy, Value.asInt32,
    Value.asInt32, hx, hy]
  rfl

theorem apply_bitNot_number (ha : a.isNumber) (h : Heap) :
    bitNot.apply [a] h = .ok (.int32 (~~~a.asInt32)) h := by
  obtain ⟨x, hx⟩ := Value.isNumber_iff_double?.1 ha
  change HeapM.look (·.bitNot a) h = _
  rw [HeapM.look_run, Heap.bitNot, Heap.toInt32_number hx, Value.asInt32, hx]
  rfl

end Stub

/-! ### Words -/

/-- A word below the sign bit is an integer. -/
theorem Value.number_of_small {w : UInt32} (hw : w.toNat < 2 ^ 31) :
    number (.ofNat w.toNat) = int32 w.toInt32 := by
  have hof : Double.ofNat w.toNat = .ofInt w.toNat := by
    rw [Double.ofNat, Double.ofInt, Int.natAbs_natCast, decide_eq_false (by omega)]
  have hlt : (w.toNat : Int).natAbs < Double.twoPow 53 :=
    Nat.lt_trans hw (Double.twoPow_lt (m := 31) (by decide))
  have hi : Int32.ofInt w.toNat = w.toInt32 := by
    rw [Int32.ofInt_eq_ofNat, ← UInt32.toInt32_ofNat', UInt32.ofNat_toNat]
  rw [number, hof, Double.exactInt32?_ofInt hlt, Double.int32?, if_pos (by omega), hi]

namespace BitOp

/-- The word that the machine computes. -/
def word (op : BitOp) (a b : Int32) : UInt32 := (AluOp.bit op).apply a.toUInt32 b.toUInt32

variable (op : BitOp) (a b : Int32)

theorem apply_comm (hop : op.isCommutative) : op.apply a b = op.apply b a := by
  cases op with
  | or => exact congrArg Value.int32 (Int32.or_comm a b)
  | and => exact congrArg Value.int32 (Int32.and_comm a b)
  | xor => exact congrArg Value.int32 (Int32.xor_comm a b)
  | _ => cases hop

theorem word_zero (hop : op.zeroIsIdentity) : op.word a 0 = a.toUInt32 := by
  cases op with
  | and | ursh => cases hop
  | or => exact UInt32.or_zero
  | xor => exact UInt32.xor_zero
  | lsh => exact UInt32.shiftLeft_zero
  | rsh =>
    change (a >>> (0 : Int32)).toUInt32 = a.toUInt32
    rw [Int32.shiftRight_zero]

/-- An unsigned shift that moves anything gives an integer. -/
theorem word_ursh_lt (hb : b &&& 31 ≠ 0) : (ursh.word a b).toNat < 2 ^ 31 := by
  have hne : b.toUInt32 &&& 31 ≠ 0 := by
    intro h
    have hz := congrArg UInt32.toInt32 h
    exact hb (by simpa using hz)
  have hpos : 0 < (b.toUInt32 &&& 31).toNat := by
    rw [Nat.pos_iff_ne_zero]
    exact fun h => hne (UInt32.toNat_inj.1 h)
  have hle : (b.toUInt32 &&& 31).toNat ≤ 31 := by
    rw [UInt32.toNat_and]
    exact Nat.and_le_right
  change (a.toUInt32 >>> (b.toUInt32 &&& 31)).toNat < _
  rw [UInt32.toNat_shiftRight, Nat.mod_eq_of_lt (by omega), Nat.shiftRight_eq_div_pow,
    Nat.div_lt_iff_lt_mul (Nat.two_pow_pos _)]
  have ha : a.toUInt32.toNat < 2 ^ 32 := a.toUInt32.toNat_lt
  have hpow := Nat.pow_le_pow_right Nat.two_pos hpos
  omega

/-- Unless it is an unsigned shift by zero, the word is the result. -/
theorem apply_eq_word (h : op = .ursh → b &&& 31 ≠ 0) :
    op.apply a b = .int32 (op.word a b).toInt32 := by
  cases op with
  | ursh => exact Value.number_of_small (word_ursh_lt a b (h rfl))
  | _ => rfl

/-- The word of an unsigned shift is the result unless its sign bit is set. -/
theorem apply_ursh_of_sign {a b : Int32}
    (h : (Cond.signed .lt).eval (ursh.word a b).toUInt64 (0 : Int64).toUInt64 = false) :
    ursh.apply a b = .int32 (ursh.word a b).toInt32 := by
  have hsign : 0 ≤ (ursh.word a b).toBitVec.toInt := by
    simp only [Cond.eval, UInt32.toUInt32_toUInt64] at h
    exact Int.not_lt.1 (of_decide_eq_false h)
  have hcond := BitVec.toInt_eq_toNat_cond (ursh.word a b).toBitVec
  refine Value.number_of_small (w := ursh.word a b) ?_
  rw [← UInt32.toNat_toBitVec]
  split at hcond <;> omega

end BitOp

namespace CompileM

variable {E : Placement} {c : Context} {k : Cursor} {S : Scene} {σ : Store} {f : Frame}
  {K : Holdings} {H : Prop} {A : Answer} {op : BitOp} {lhs rhs : Slot}

variable {payload : Reg} {o : Operand} {slow : Bool} {g : Frame} {plan lhsPlan : IntPlan}
  {K' : Holdings} {H' : Prop} {r : Value} {h' : Heap}

/-- The instruction computes the operator on converted operands. -/
theorem emitBitOp_emits (h : S.Armed E σ f K H k) (hr : K.temp payload)
    (hl : H → f.Converted σ K lhs (.reg payload)) (ho : H → f.Converted σ K rhs o)
    (hconst : f.numberConstant? lhs = none ∨ f.numberConstant? rhs = none)
    (himm : ∀ n, o = .imm n → f.numberConstant? rhs ≠ none) :
    Emits E (emitBitOp op payload o) k S fun _ k' S' => S'.Armed E σ f
      (K.put payload (op.word (σ.env lhs).asInt32 (σ.env rhs).asInt32).toUInt64) H k' := by
  unfold emitBitOp
  split
  · next hskip =>
    -- nothing is emitted: the left operand is the result, and it is no constant
    obtain ⟨rfl, hzero⟩ := hskip
    have hnone := hconst.resolve_right (himm 0 rfl)
    refine emits_pure ⟨h.view, h.holding.put (.inl (h.holding.temp payload hr)) _, ?_⟩
    refine h.within.trans
      { Scene.Within.refl _ with fast := fun m hw => ⟨hw.facts, hw.carries, ?_⟩ }
    obtain ⟨u, hu, hur, -⟩ := (ho hw.facts).word
    obtain ⟨w, hword, -, hexact⟩ := (hl hw.facts).word
    obtain rfl : 0 = u := Option.some.inj hu
    have hb : (σ.env rhs).asInt32 = 0 := by
      have := congrArg UInt32.toInt32 hur
      simpa using this.symm
    refine hw.shown.put ?_
    rw [hb, op.word_zero _ hzero, hw.shown.reg payload w hword, hexact hnone]
    rfl
  · refine set_emits h rfl hr fun hlt m hw => ?_
    obtain ⟨w, hword, hwl, -⟩ := (hl hw.facts).word
    obtain ⟨u, hu, hur, -⟩ := (ho hw.facts).word
    rw [BitOp.word, ← hwl, ← hur]
    exact executes_alu (hw.shown.reg _ _ hword) (hw.shown.operand hu) hlt

/-- Giving back the registers of a plan. -/
theorem freePlan_emits {n d : Nat} (h : S.Releasing E σ A slow g n d K H k) :
    Emits E (liftM (freePlan plan)) k S
      fun _ k' S' => S'.Releasing E σ A slow g n d K H k' := by
  cases plan with
  | truncate x => exact freeDouble_emits h
  | _ => exact emits_done h

theorem releaseRead_produces {n d : Nat} (h : S.Releasing E σ A slow g n d K H k) :
    Produces E c (releaseRead o plan) k S
      fun _ k' S' => S'.Releasing E σ A slow g n d K H k' := by
  unfold releaseRead
  refine (freePlan_emits h).lift.bind fun _ k₁ S₁ h₁ => ?_
  split
  · exact produces_pure h₁
  · exact (free_emits h₁).lift
  · exact produces_fail

/-- What is planned for the right operand, given the plan for the left one. -/
inductive RightPlan (f : Frame) (σ : Store) (K : Holdings) (H : Prop) (lhs rhs : Slot)
    (payload : Reg)
    (lhsPlan : IntPlan) : Operand → IntPlan → Prop
  /-- The operands are one value. -/
  | shared : σ.env rhs = σ.env lhs → f.numberConstant? rhs = f.numberConstant? lhs →
      RightPlan f σ K H lhs rhs payload lhsPlan (.reg payload) .ready
  /-- The plans have different registers. -/
  | own {o : Operand} {plan : IntPlan} : plan.Prepared f σ K H rhs o → o ≠ .reg payload →
      (∀ s p, plan = .tagged s p → p ≠ payload) →
      (∀ x, plan = .truncate x → lhsPlan ≠ .truncate x) →
      (∀ n, o = .imm n → f.numberConstant? rhs ≠ none) →
      RightPlan f σ K H lhs rhs payload lhsPlan o plan

theorem RightPlan.widens (h : RightPlan f σ K H lhs rhs payload lhsPlan o plan)
    (hK : K.Widens K' H') (hH : H' → H) : RightPlan f σ K' H' lhs rhs payload lhsPlan o plan := by
  cases h with
  | shared henv hc => exact .shared henv hc
  | own hp ho hpay hx himm => exact .own (hp.widens hK hH) ho hpay hx himm

theorem RightPlan.imm (h : RightPlan f σ K H lhs rhs payload lhsPlan o plan) (n : Int64)
    (hn : o = .imm n) : f.numberConstant? rhs ≠ none := by
  cases h with
  | shared => cases hn
  | own _ _ _ _ himm => exact himm n hn

/-- After the left operand has been converted. -/
theorem RightPlan.applied (h : RightPlan f σ K H lhs rhs payload lhsPlan o plan)
    (ha : lhsPlan.Applied K payload K') (hc : H' → f.Converted σ K' lhs (.reg payload))
    (hH : H' → H) : plan.Prepared f σ K' H' rhs o ∧ (plan = .ready ∨ o ≠ .reg payload) := by
  cases h with
  | shared henv hconst =>
    refine ⟨.ready fun hh => ?_, .inl rfl⟩
    obtain ⟨hnum, w, hw, hword, hexact⟩ := hc hh
    exact ⟨henv ▸ hnum, w, hw, henv ▸ hword, fun hn => henv ▸ hexact (hconst ▸ hn)⟩
  | own hp ho hpay hx _ => exact ⟨hp.applied ha ho hpay hx hH, .inr ho⟩

/-- The plan for the right operand, which may be the left one. -/
theorem planRight_emits {L : Holdings} {G : Prop} (hag : f.Agrees σ) (h : S.Loading E σ f K H k)
    (hr : rhs < f.sp) (hconv : isIntConvertible f rhs) (hl : lhs < f.sp)
    (hp : lhsPlan.Planned f σ lhs L G (.reg payload) K H) (htemp : K.temp payload) :
    Emits E (liftM (planRight ((f.constant? rhs).isNone && f.sameBacking lhs rhs) payload rhs))
      k S
      fun x k' S' => ∃ K' H', S'.Loading E σ f K' H' k' ∧ (H' → H) ∧ K.Widens K' H' ∧
        RightPlan f σ K' H' lhs rhs payload lhsPlan x.1 x.2.1 := by
  unfold planRight
  split
  · next hshared =>
    simp only [Bool.and_eq_true, Option.isNone_iff_eq_none, sameBacking,
      decide_eq_true_iff] at hshared
    obtain ⟨hnone, hback⟩ := hshared
    refine emits_done ⟨K, H, h, id, .refl K H, .shared ?_ ?_⟩
    · rw [hag.backing rhs hr, ← hback, ← hag.backing lhs hl]
    · simp only [numberConstant?, constant?, backingEntry, hback]
  · refine (planRead_emits hag h hr hconv).mono ?_
    rintro ⟨o, plan, pins⟩ k' S' ⟨K', H', h', hplan, himm⟩
    refine ⟨K', H', h', hplan.facts, hplan.widens, .own hplan.prepared ?_ ?_ ?_ himm⟩
    · rintro rfl
      exact hplan.apart.operand payload rfl htemp
    · rintro s p hs rfl
      exact hplan.apart.payload s p hs htemp
    · rintro x hx rfl
      refine hplan.apart.number x hx ?_
      cases hp.prepared with
      | truncate _ hx _ _ => exact hx

/-- The registers for the result. -/
theorem bitResult_emits {isWide : Bool} (h : S.Loading E σ f K H k) :
    Emits E (liftM (bitResult payload isWide)) k S fun res k' S' => ∃ K',
      S'.Loading E σ f K' H k' ∧ K.Widens K' H ∧
      res.Planned payload K' (if isWide then .double else .int32) := by
  unfold bitResult
  split
  · refine (allocDouble_emits h).step ?_
    rintro x k' S' ⟨h', -⟩
    exact emits_done
      ⟨_, h', ⟨fun _ _ hr _ => hr, fun _ _ => id, fun _ => id, fun _ => .inr⟩, .wide (by simp)⟩
  · exact emits_done ⟨K, h, .refl K H, .narrow⟩

/-- The result is in registers; the slow path and the stack remain. -/
theorem finishBitOp_produces {res : IntResult} {t : KnownType} {v : Value} {rhsPlan : IntPlan}
    {pins : List Reg} (types : TypeSet) (htrust : c.Trusts E (f.answer σ (.bit op)))
    (h : S.Armed E σ f K H k) (hsp : 2 ≤ f.sp) (hres : res.Planned payload K t) (hv : res.Holds K v)
    (htag : t = .int32 → H → v.tag = .int32) (hnum : H → v.isNumber) (hunknown : t ≠ .unknown)
    (ht : ∀ r h, (f.answer σ (.bit op)).ok r h → t.Describes r)
    (hA : H → (f.answer σ (.bit op)).ok v σ.heap) :
    Produces E c (do
      let slow ← hasExits
      if slow then slowCall (.bit op) 0
      releaseRead o rhsPlan
      freePlan lhsPlan
      unpinAll pins
      updateFrame (popN 2)
      pushInt res types
      if slow then rejoin 1
      return Emitted.inline) k S fun _ k' S' =>
        S'.Yields E σ (f.answer σ (.bit op)) f (f.sp - 2) k' := by
  refine slowCall?_produces h (covers_bitwise htrust rfl Nat.one_ne_zero hsp)
    fun slow k₁ S₁ h₁ => ?_
  refine (releaseRead_produces h₁).bind fun _ k₂ S₂ h₂ => ?_
  refine (freePlan_emits h₂).next fun _ k₃ S₃ h₃ => ?_
  refine (unpinAll_emits h₃).next fun _ k₄ S₄ h₄ => ?_
  refine (popN_emits h₄ hsp).next fun _ k₅ S₅ h₅ => ?_
  refine (pushInt_emits types h₅ hres hv (fun ht => absurd ht hunknown) htag hnum hA).next
    fun _ k₆ S₆ h₆ => ?_
  exact (rejoin?_produces h₆ ht).mono fun _ _ _ hy => hy.view h.view

/-- The inline code gives what the operator gives. -/
theorem bitOpInline_produces {shift : Option Int32}
    (htrust : c.Trusts E (k.frame.answer σ (.bit op))) (hag : k.frame.Agrees σ)
    (h : S.Loading E σ k.frame .none True k) (hsp : 2 ≤ k.frame.sp) (hl : lhs < k.frame.sp)
    (hr : rhs < k.frame.sp) (hcl : isIntConvertible k.frame lhs)
    (hcr : isIntConvertible k.frame rhs)
    (hconst : k.frame.numberConstant? lhs = none ∨ k.frame.numberConstant? rhs = none)
    (hshift : op = .ursh → ∀ i, shift = some i → (σ.env rhs).asInt32 &&& 31 ≠ 0)
    (ht : ∀ r h, (k.frame.answer σ (.bit op)).ok r h →
      (if op = .ursh ∧ shift.isNone then KnownType.double else .int32).Describes r)
    (hA : (σ.env lhs).isNumber → (σ.env rhs).isNumber → (k.frame.answer σ (.bit op)).ok
      (op.apply (σ.env lhs).asInt32 (σ.env rhs).asInt32) σ.heap) :
    Produces E c (bitOpInline op lhs rhs shift) k S fun _ k' S' =>
      S'.Yields E σ (k.frame.answer σ (.bit op)) k.frame (k.frame.sp - 2) k' := by
  unfold bitOpInline
  refine produces_bind (Emits.lift (emits_frame ?_))
  refine produces_bind (produces_read (produces_pure ?_))
  refine (planOwned_emits hag h hl hcl).next ?_
  rintro ⟨payload, lhsPlan, lhsPins⟩ k₁ S₁ ⟨K₁, H₁, h₁, hp₁, htemp₁⟩
  refine (planRight_emits hag h₁ hr hcr hl hp₁ htemp₁).next ?_
  rintro ⟨rhsOp, rhsPlan, rhsPins⟩ k₂ S₂ ⟨K₂, H₂, h₂, hH₂, hw₂, hright₂⟩
  refine (bitResult_emits h₂).next ?_
  rintro res k₃ S₃ ⟨K₃, h₃, hw₃, hres₃⟩
  have hleft := (hp₁.prepared.widens hw₂ hH₂).widens hw₃ id
  have hright := hright₂.widens hw₃ id
  have htemp₃ := hw₃.temp _ (hw₂.temp _ htemp₁)
  refine (applyPlan_emits hag hl h₃.armed hleft).next ?_
  rintro _ k₄ S₄ ⟨K₄, h₄, ha₄, hconv₄⟩
  obtain ⟨hright₄, hne⟩ := hright.applied ha₄ hconv₄ And.left
  refine (applyRead_emits hag hr h₄ hright₄ hne).next ?_
  rintro _ k₅ S₅ ⟨K₅, h₅, hreg, htemp₅, hftemp₅, hconv₅⟩
  have hconv₆ : (H₂ ∧ (σ.env lhs).isNumber) ∧ (σ.env rhs).isNumber →
      k.frame.Converted σ K₅ lhs (.reg payload) := by
    rintro ⟨hh, -⟩
    obtain ⟨hnum, w, hw, hrest⟩ := hconv₄ hh
    exact ⟨hnum, w, hreg.trans hw, hrest⟩
  have htemp : K₅.temp payload := by
    rw [htemp₅, ha₄.temp]
    exact htemp₃
  refine (emitBitOp_emits h₅ htemp hconv₆ hconv₅ hconst hright₂.imm).next fun _ k₆ S₆ h₆ => ?_
  have hftemp : K₅.ftemp = K₃.ftemp := hftemp₅.trans ha₄.ftemp
  have hbit : ∀ hh : (H₂ ∧ (σ.env lhs).isNumber) ∧ (σ.env rhs).isNumber,
    (k.frame.answer σ (.bit op)).ok
      (op.apply (σ.env lhs).asInt32 (σ.env rhs).asInt32) σ.heap := fun hh => hA hh.1.2 hh.2
  by_cases hu : op = .ursh ∧ shift.isNone
  · rw [if_pos (decide_eq_true hu)]
    rw [if_pos hu] at ht
    rw [decide_eq_true hu, Bool.true_and] at hres₃
    obtain ⟨rfl, -⟩ := hu
    by_cases hint : (c.oracle.pushed c.pc).knownType = .int32
    · -- an integer is promised, so a word with its sign bit set goes to the stub
      simp only [hint, ne_eq, not_true_eq_false, decide_false] at hres₃
      cases hres₃ with
      | narrow =>
        refine (check_emits h₆ fun m hw => Guard.tests_compare (o := .reg payload)
          (hw.shown.reg payload _ (if_pos rfl)) rfl).next fun _ k₇ S₇ h₇ => ?_
        refine finishBitOp_produces (v := .int32 _) _ htrust h₇ hsp .narrow ?_ (fun _ _ => rfl)
          (fun _ => rfl) (by simp)
          (fun r h' ha => hint ▸ TypeSet.describes_knownType (htrust.pushed r h' ha))
          fun hh => BitOp.apply_ursh_of_sign hh.2 ▸ hbit hh.1
        simp [IntResult.Holds, Value.payload]
    · -- the word is unsigned, so the result is a double
      simp only [hint, ne_eq, not_false_eq_true, decide_true] at hres₃
      cases hres₃ with
      | wide hx =>
        rw [← hftemp] at hx
        refine (setF_emits
          (v := BitOp.ursh.apply (σ.env lhs).asInt32 (σ.env rhs).asInt32) h₆ rfl hx
          fun hlt m hw => ?_).next fun _ k₇ S₇ h₇ => ?_
        · have hword := hw.shown.reg payload _ (if_pos rfl)
          refine ⟨_, executes_uint32ToDouble hword hlt, fun _ => ?_⟩
          rw [UInt32.toUInt32_toUInt64]
          exact Value.same_symm (Value.number_same _)
        · exact finishBitOp_produces _ htrust h₇ hsp (.wide hx) (if_pos rfl) (by simp)
            (fun _ => Value.isNumber_number _) (by simp) ht hbit
  · rw [if_neg (by simpa using hu)]
    rw [if_neg hu] at ht
    rw [decide_eq_false hu, Bool.false_and] at hres₃
    have happly := op.apply_eq_word (σ.env lhs).asInt32 (σ.env rhs).asInt32 fun hop => by
      cases hs : shift with
      | none => exact absurd ⟨hop, by rw [hs]; rfl⟩ hu
      | some i => exact hshift hop i hs
    cases hres₃ with
    | narrow =>
      refine finishBitOp_produces (v := .int32 _) _ htrust h₆ hsp .narrow ?_ (fun _ _ => rfl)
        (fun _ => rfl) (by simp) ht fun hh => happly ▸ hbit hh
      simp [IntResult.Holds, Value.payload]

theorem answer_bit (hag : f.Agrees σ) (hsp : 2 ≤ f.sp) (hl : (σ.env (f.peek 2)).isNumber)
    (hr : (σ.env (f.peek 1)).isNumber) : (f.answer σ (.bit op)).ok
      (op.apply (σ.env (f.peek 2)).asInt32 (σ.env (f.peek 1)).asInt32) σ.heap :=
  ⟨_, hag.supplies_two hsp, Stub.apply_bit_number op hl hr σ.heap⟩

/-- A shift by a number that is known not to be zero gives an integer. -/
theorem describes_answer_ursh (hsp : 2 ≤ f.sp) (hr : (σ.env (f.peek 1)).isNumber)
    (hshift : (σ.env (f.peek 1)).asInt32 &&& 31 ≠ 0) (ha : (f.answer σ (.bit .ursh)).ok r h') :
    KnownType.int32.Describes r := by
  obtain ⟨us, hpass, hrun⟩ := ha
  obtain ⟨a, b, rfl, -, hfb⟩ := hpass.two hsp
  obtain ⟨hok, -⟩ := HeapM.look_eq_ok hrun
  obtain ⟨y, hy⟩ := Value.isNumber_iff_double?.1 hr
  rw [Value.asInt32, hy, Option.getD_some] at hshift
  simp only [Heap.bitOp, Heap.toInt32_same hfb.same, Heap.toInt32_number hy, bind,
    Except.bind] at hok
  cases ha : σ.heap.toInt32 a with
  | error e => simp [ha] at hok
  | ok i =>
    rw [ha] at hok
    cases hok
    rw [BitOp.apply_eq_word _ _ _ fun _ => hshift]
    exact KnownType.describes_ofValue (.int32 _)

theorem describes_answer_signed (hop : op ≠ .ursh) (ha : (f.answer σ (.bit op)).ok r h') :
    KnownType.int32.Describes r := by
  have hd := describes_answer rfl ha
  cases op with
  | ursh => exact absurd rfl hop
  | _ => exact hd

/-- The code of a bitwise operator gives what the operator gives. -/
theorem bitOp_produces (htrust : c.Trusts E (k.frame.answer σ (.bit op)))
    (hag : k.frame.Agrees σ) (h : S.Loading E σ k.frame .none True k) (hsp : 2 ≤ k.frame.sp) :
    Produces E c (bitOp op) k S fun _ k' S' =>
      S'.Yields E σ (k.frame.answer σ (.bit op)) k.frame (k.frame.sp - 2) k' := by
  have hlt : k.frame.peek 2 < k.frame.sp := Frame.peek_lt Nat.two_pos hsp
  have hrt : k.frame.peek 1 < k.frame.sp := Frame.peek_lt Nat.one_pos (Nat.le_of_succ_le hsp)
  unfold bitOp
  refine produces_bind (Emits.lift (emits_frame ?_))
  dsimp only
  split
  · next a b ha hb =>
    refine (replaceByConstant_emits h hsp fun _ => ?_).next fun _ _ _ h' => produces_pure h'
    have hla := hag.numberConstant? hlt ha
    have hrb := hag.numberConstant? hrt hb
    have hans : (k.frame.answer σ (.bit op)).ok _ _ := answer_bit hag hsp
      (Value.isNumber_iff_double?.2 ⟨a, hla⟩) (Value.isNumber_iff_double?.2 ⟨b, hrb⟩)
    rwa [Value.asInt32, Value.asInt32, hla, hrb] at hans
  · next b hnot =>
    split
    · exact emitStub_produces htrust rfl Nat.one_ne_zero h hsp
    · next hconv =>
      simp only [Bool.or_eq_true, Bool.not_eq_true', not_or, Bool.not_eq_false] at hconv
      have hconst : k.frame.numberConstant? (k.frame.peek 2) = none ∨
          k.frame.numberConstant? (k.frame.peek 1) = none := by
        rcases (k.frame.numberConstant? (k.frame.peek 2)).eq_none_or_eq_some with hl | ⟨x, hx⟩
        · exact .inl hl
        · rcases (k.frame.numberConstant? (k.frame.peek 1)).eq_none_or_eq_some with hr | ⟨y, hy⟩
          · exact .inr hr
          · exact (hnot x y hx hy).elim
      split
      · exact emitStub_produces htrust rfl Nat.one_ne_zero h hsp
      · next hzero =>
        have hamount : op = .ursh → ∀ d, k.frame.numberConstant? (k.frame.peek 1) = some d →
            (σ.env (k.frame.peek 1)).asInt32 &&& 31 ≠ 0 := by
          intro hu d hd hz
          rw [Value.asInt32, hag.numberConstant? hrt hd] at hz
          exact hzero ⟨hu, by rw [hd]; exact congrArg some hz⟩
        split
        · next hswap =>
          simp only [Bool.and_eq_true] at hswap
          have hop : op ≠ .ursh := by
            rintro rfl
            cases hswap.1
          refine bitOpInline_produces htrust hag h hsp hrt hlt hconv.2 hconv.1 hconst.symm
            (fun hu => absurd hu hop) (fun r h' ha => ?_) fun hl hr => ?_
          · rw [if_neg fun hu => hop hu.1]
            exact describes_answer_signed hop ha
          · rw [op.apply_comm _ _ hswap.1]
            exact answer_bit hag hsp hr hl
        · refine bitOpInline_produces htrust hag h hsp hlt hrt hconv.1 hconv.2 hconst ?_
            (fun r h' ha => ?_) fun hl hr => answer_bit hag hsp hl hr
          · intro hu i hi
            obtain ⟨d, hd, -⟩ := Option.map_eq_some_iff.1 hi
            exact hamount hu d hd
          · split
            · next hu =>
              obtain ⟨rfl, -⟩ := hu
              exact Frame.describes_answer rfl ha
            · next hu =>
              by_cases hop : op = .ursh
              · have hsome : k.frame.numberConstant? (k.frame.peek 1) ≠ none := fun hn =>
                  hu ⟨hop, by rw [hn]; rfl⟩
                obtain ⟨d, hd⟩ := Option.ne_none_iff_exists'.1 hsome
                subst hop
                refine describes_answer_ursh hsp ?_ (hamount rfl d hd) ha
                exact Value.isNumber_iff_double?.2 ⟨d, hag.numberConstant? hrt hd⟩
              · exact describes_answer_signed hop ha

/-- The code of the complement gives what the operator gives. -/
theorem bitNot_produces (htrust : c.Trusts E (k.frame.answer σ .bitNot))
    (hag : k.frame.Agrees σ) (h : S.Loading E σ k.frame .none True k) (hsp : 1 ≤ k.frame.sp) :
    Produces E c bitNot k S fun _ k' S' =>
      S'.Yields E σ (k.frame.answer σ .bitNot) k.frame (k.frame.sp - 1) k' := by
  have hlt : k.frame.peek 1 < k.frame.sp := Frame.peek_lt Nat.one_pos hsp
  have hA : (k.frame.answer σ .bitNot).Covers E k.frame σ .bitNot :=
    Frame.covers_bitwise htrust rfl Nat.one_ne_zero hsp
  have hans : (σ.env (k.frame.peek 1)).isNumber → (k.frame.answer σ .bitNot).ok
      (.int32 (~~~(σ.env (k.frame.peek 1)).asInt32)) σ.heap :=
    fun hn => ⟨_, hag.supplies_one hsp, Stub.apply_bitNot_number hn σ.heap⟩
  unfold bitNot
  refine produces_bind (Emits.lift (emits_frame ?_))
  dsimp only
  split
  · next d hd =>
    refine (replaceByConstant_emits h hsp fun _ => ?_).next fun _ _ _ h' => produces_pure h'
    have henv := hag.numberConstant? hlt hd
    have hok := hans (Value.isNumber_iff_double?.2 ⟨d, henv⟩)
    rwa [Value.asInt32, henv] at hok
  · split
    · exact emitStub_produces htrust rfl Nat.one_ne_zero h hsp
    · next hconv =>
      refine (planOwned_emits hag h hlt (by simpa using hconv)).next ?_
      rintro ⟨res, plan, pins⟩ k₁ S₁ ⟨K₁, H₁, h₁, hp₁, htemp₁⟩
      refine (applyPlan_emits hag hlt h₁.armed hp₁.prepared).next ?_
      rintro _ k₂ S₂ ⟨K₂, h₂, ha₂, hconv₂⟩
      refine (set_emits (r := res)
        (w := (Value.int32 (~~~(σ.env (k.frame.peek 1)).asInt32)).payload) h₂ rfl
        (ha₂.temp ▸ htemp₁) fun hlt m hw => ?_).next fun _ k₃ S₃ h₃ => ?_
      · obtain ⟨-, w, hw', hword, -⟩ := hconv₂ hw.facts
        have hx := executes_bitNot (hw.shown.reg _ _ hw') hlt
        rw [hword] at hx
        exact hx
      refine slowCall?_produces h₃ hA fun slow k₄ S₄ h₄ => ?_
      refine (freePlan_emits h₄).next fun _ k₅ S₅ h₅ => ?_
      refine (unpinAll_emits h₅).next fun _ k₆ S₆ h₆ => ?_
      refine (popN_emits h₆ hsp).next fun _ k₇ S₇ h₇ => ?_
      refine (pushTyped_emits (v := .int32 (~~~(σ.env (k.frame.peek 1)).asInt32)) h₇ (by simp)
        (fun _ tag htag => by cases htag; rfl) fun hh => hans hh.2).next fun _ k₈ S₈ h₈ => ?_
      exact (rejoin?_produces h₈ fun r h ha => Frame.describes_answer rfl ha).mono
        fun _ _ _ hy => hy.view h₃.view

end CompileM

end FastPath
