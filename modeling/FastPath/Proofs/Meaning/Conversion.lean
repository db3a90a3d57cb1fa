import FastPath.Proofs.Double.Truncation
import FastPath.Proofs.Meaning.Operators

/-!
# Conversion to 32-bit integers

The operands of bitwise operators are converted behind guards, and each operand has a plan for
that. The registers of all plans are allocated before the first guard; then the conversions are
emitted one after the other. A number out of range is tried once more, moved by `2 ^ 32`, in the
slow stream; both ways come back with the same integer in the same register.

## Main results

* `CompileM.planOwned_emits`, `CompileM.planRead_emits`: what a plan prepares.
* `CompileM.applyPlan_emits`, `CompileM.applyRead_emits`: the operand is converted.
-/

namespace FastPath

open AsmM

attribute [local instance] Cell.written

/-- The 32-bit integer that a number converts to. -/
def Value.asInt32 (v : Value) : Int32 := (v.double?.getD .zero).toInt32

theorem Value.asInt32_int32 (i : Int32) : (int32 i).asInt32 = i := Double.toInt32_ofInt32 i

/-! ### Registers -/

namespace Holdings

variable {K K' : Holdings} {H : Prop} {r : Reg} {x : FReg} {w : UInt64} {m : Machine}

theorem fput_fput (u v : Value) : (K.fput x u).fput x v = K.fput x v := by
  simp only [fput, Holdings.mk.injEq, true_and, and_true]
  funext y
  split <;> rfl

/-- Nothing more is known of a register. -/
def fdrop (K : Holdings) (x : FReg) : Holdings :=
  { K with freg := fun y => if y = x then .none else K.freg y }

/-- All that is known by the first is known by the second. -/
structure Fewer (K K' : Holdings) : Prop where
  reg : ∀ r w, K.reg r = some w → K'.reg r = some w
  freg : ∀ x v, K.freg x = some v → K'.freg x = some v

theorem Fewer.put (h : K.Fewer K') : (K.put r w).Fewer (K'.put r w) where
  reg q u hq := by
    rw [reg_put] at hq ⊢
    split
    · next heq => rwa [if_pos heq] at hq
    · next hne => exact h.reg q u (by rwa [if_neg hne] at hq)
  freg := h.freg

theorem fewer_fdrop : (K.fdrop x).Fewer K where
  reg _ _ := id
  freg y v hy := by
    simp only [fdrop] at hy
    split at hy
    · cases hy
    · exact hy

variable {v : Value}

theorem fewer_fput (hx : K.freg x = .none) : K.Fewer (K.fput x v) where
  reg _ _ := id
  freg y u hy := by
    rw [freg_fput, if_neg]
    · exact hy
    · rintro rfl
      cases hx.symm.trans hy

/-- What is known without a register stays known when it is written. -/
theorem fdrop_fewer (h : K.Fewer K') : (K.fdrop x).Fewer (K'.fput x v) where
  reg := h.reg
  freg y u hy := by
    simp only [fdrop] at hy
    split at hy
    · cases hy
    · next hne =>
      rw [freg_fput, if_neg hne]
      exact h.freg y u hy

theorem Shown.fewer (h : K'.Shown m) (hK : K.Fewer K') : K.Shown m :=
  ⟨fun r w hr => h.reg r w (hK.reg r w hr), fun x v hx => h.freg x v (hK.freg x v hx)⟩

/-- More is held, and what was known stays known, given the facts. -/
structure Widens (K K' : Holdings) (H : Prop) : Prop where
  reg : ∀ r w, K.reg r = some w → H → K'.reg r = some w
  freg : ∀ x v, K.freg x = some v → K'.freg x = some v
  temp : ∀ r, K.temp r → K'.temp r
  ftemp : ∀ x, K.ftemp x → K'.ftemp x

theorem Widens.refl (K : Holdings) (H : Prop) : K.Widens K H :=
  ⟨fun _ _ h _ => h, fun _ _ => id, fun _ => id, fun _ => id⟩

theorem Widens.fresh (hr : K.Fresh r) : K.Widens ((K.take r).put r w) H :=
  ⟨fun _ _ hq _ => hr.reg_put hq, fun _ _ => id, fun _ => .inr, fun _ => id⟩

/-- A register that was looked at has what it was seen to have. -/
theorem Widens.seen : K.Widens (K.put r w) (H ∧ ∀ u, K.reg r = some u → u = w) := by
  refine ⟨fun q u hq hh => ?_, fun _ _ => id, fun _ => id, fun _ => id⟩
  rw [reg_put]
  split
  · next heq =>
    subst heq
    rw [hh.2 u hq]
  · exact hq

end Holdings

namespace Frame

variable {f : Frame} {N : Nat} {σ : Store} {K K' : Holdings} {H H' : Prop} {m : Machine}

theorem Holding.fdrop (h : f.Holding K) (x : FReg) : f.Holding (K.fdrop x) where
  __ := h
  freg y hy := h.freg y fun hn => hy (by simp [Holdings.fdrop, hn])

theorem Works.fewer (h : f.Works N σ K' H m) (hK : K.Fewer K') (hH : H → H') :
    f.Works N σ K H' m :=
  ⟨hH h.facts, h.carries, h.shown.fewer hK⟩

theorem Holding.freg_scratch (h : f.Holding K) : K.freg .scratch = none := by
  by_contra hx
  rcases h.freg _ hx with ht | hp
  · rw [fbinding_scratch] at ht
    cases ht
  · exact absurd (RegisterFile.lt_of_isFPinned hp) (by decide)

/-- An operand has the converted value of a slot. A constant may be sign-extended. -/
structure Converted (f : Frame) (σ : Store) (K : Holdings) (s : Slot) (o : Operand) : Prop where
  isNumber : (σ.env s).isNumber
  word : ∃ w, K.operand? o = some w ∧ w.toUInt32 = (σ.env s).asInt32.toUInt32 ∧
    (f.numberConstant? s = none → w = (Value.int32 (σ.env s).asInt32).payload)

end Frame

/-! ### Plans -/

namespace IntPlan

variable {f : Frame} {σ : Store} {K K' : Holdings} {H H' : Prop} {s : Slot} {o : Operand}
  {plan plan' : IntPlan} {dst : Reg}

/-- What a plan needs to convert the value of a slot. -/
inductive Prepared (f : Frame) (σ : Store) (K : Holdings) (H : Prop) (s : Slot) :
    Operand → IntPlan → Prop
  | ready {o : Operand} : (H → f.Converted σ K s o) → Prepared f σ K H s o .ready
  | truncate {r : Reg} {x : FReg} : K.temp r → K.ftemp x → K.freg x = some (σ.env s) →
      f.knownType s = .double → Prepared f σ K H s (.reg r) (.truncate x)
  | tagged {r p : Reg} : K.temp r → p ≠ r → (H → K.reg p = some (σ.env s).payload) →
      f.knownType s = .unknown → Prepared f σ K H s (.reg r) (.tagged s p)

/-- The registers of a plan are none of the temporaries. -/
structure Apart (K : Holdings) (o : Operand) (plan : IntPlan) : Prop where
  operand : ∀ r, o = .reg r → ¬K.temp r
  payload : ∀ s p, plan = .tagged s p → ¬K.temp p
  number : ∀ x, plan = .truncate x → ¬K.ftemp x

theorem Apart.fresh {r : Reg} (hr : K.Fresh r) : Apart K (.reg r) .ready :=
  ⟨fun _ h => by cases h; exact hr.2, nofun, nofun⟩

/-- Registers for a conversion have been added. -/
structure Planned (plan : IntPlan) (f : Frame) (σ : Store) (s : Slot) (K : Holdings) (H : Prop)
    (o : Operand) (K' : Holdings) (H' : Prop) : Prop where
  facts : H' → H
  widens : K.Widens K' H'
  prepared : plan.Prepared f σ K' H' s o
  apart : Apart K o plan

/-- What a conversion writes. -/
structure Applied (plan : IntPlan) (K : Holdings) (dst : Reg) (K' : Holdings) : Prop where
  reg : ∀ r, r ≠ dst → K'.reg r = K.reg r
  freg : ∀ x, plan ≠ .truncate x → K'.freg x = K.freg x
  temp : K'.temp = K.temp
  ftemp : K'.ftemp = K.ftemp

variable {w : UInt64}

theorem applied_put : plan.Applied K dst (K.put dst w) :=
  ⟨fun r hr => by rw [Holdings.reg_put, if_neg hr], fun _ _ => rfl, rfl, rfl⟩

theorem applied_fdrop {x : FReg} : (truncate x).Applied K dst ((K.fdrop x).put dst w) := by
  refine ⟨fun r hr => ?_, fun y hy => ?_, rfl, rfl⟩
  · rw [Holdings.reg_put, if_neg hr]
    rfl
  · simp only [Holdings.freg_put, Holdings.fdrop]
    rw [if_neg]
    rintro rfl
    exact hy rfl

/-- A plan stays prepared when more is known. -/
theorem Prepared.widens (h : plan.Prepared f σ K H s o) (hK : K.Widens K' H') (hH : H' → H) :
    plan.Prepared f σ K' H' s o := by
  cases h with
  | ready hc =>
    refine .ready fun hh => ⟨(hc (hH hh)).isNumber, ?_⟩
    obtain ⟨w, hw, hrest⟩ := (hc (hH hh)).word
    refine ⟨w, ?_, hrest⟩
    cases o with
    | reg r => exact hK.reg r w hw hh
    | imm n => exact hw
    | tag _ | payload _ => cases hw
  | truncate hr hx hfreg ht => exact .truncate (hK.temp _ hr) (hK.ftemp _ hx) (hK.freg _ _ hfreg) ht
  | tagged hr hne hp ht =>
    exact .tagged (hK.temp _ hr) hne (fun hh => hK.reg _ _ (hp (hH hh)) hh) ht

theorem Applied.converted (ha : plan.Applied K dst K') (h : f.Converted σ K s o)
    (ho : o ≠ .reg dst) : f.Converted σ K' s o := by
  obtain ⟨w, hw, hrest⟩ := h.word
  refine ⟨h.isNumber, w, ?_, hrest⟩
  cases o with
  | reg r =>
    rw [Holdings.operand?_reg, ha.reg r fun hr => ho (hr ▸ rfl)]
    exact hw
  | imm n => exact hw
  | tag _ | payload _ => cases hw

/-- A plan stays prepared while another one is applied. -/
theorem Prepared.applied (h : plan.Prepared f σ K H s o) (ha : plan'.Applied K dst K')
    (ho : o ≠ .reg dst) (hp : ∀ s p, plan = .tagged s p → p ≠ dst)
    (hx : ∀ x, plan = .truncate x → plan' ≠ .truncate x) (hH : H' → H) :
    plan.Prepared f σ K' H' s o := by
  cases h with
  | ready hc => exact .ready fun hh => ha.converted (hc (hH hh)) ho
  | truncate hr hf hfreg ht =>
    exact .truncate (ha.temp ▸ hr) (ha.ftemp ▸ hf) ((ha.freg _ (hx _ rfl)).trans hfreg) ht
  | tagged hr hne hpay ht =>
    exact .tagged (ha.temp ▸ hr) hne (fun hh => (ha.reg _ (hp _ _ rfl)).trans (hpay (hH hh))) ht

end IntPlan

namespace CompileM

variable {E : Placement} {k : Cursor} {S : Scene} {σ : Store} {f : Frame} {K : Holdings} {H : Prop}
  {s : Slot} {F : Machine → Prop}

/-- The plan for a number or a value of unknown type. -/
theorem planConversion_emits (h : S.Loading E σ f K H k) (hs : s < f.sp)
    (ht : f.knownType s = .double ∨ f.knownType s = .unknown) :
    Emits E (liftM (planConversion s)) k S fun x k' S' => ∃ K' H', S'.Loading E σ f K' H' k' ∧
      x.2.1.Planned f σ s K H (.reg x.1) K' H' ∧ K'.temp x.1 := by
  unfold planConversion
  refine emits_look ?_
  rw [h.view.knownType s]
  split
  · next hd =>
    refine (copyNumber_emits h hs).step ?_
    rintro x k₁ S₁ ⟨h₁, hx⟩
    refine (alloc_emits h₁).step ?_
    rintro r k₂ S₂ ⟨h₂, hr⟩
    refine emits_done
      ⟨_, _, h₂, ⟨id, ?_, .truncate (by simp) (by simp) (by simp) hd, ?_⟩, by simp⟩
    · refine ⟨fun q w hq _ => hq, fun y v hy => ?_, fun q hq => .inr hq, fun y hy => .inr hy⟩
      exact hx.freg_fput hy
    · refine ⟨?_, nofun, ?_⟩
      · rintro _ ⟨⟩
        exact hr.2
      · rintro _ ⟨⟩
        exact hx.2
  · next hd =>
    refine pinnedData_emits h hs hd fun p pins k₁ S₁ h₁ hp => ?_
    refine (alloc_emits h₁).step ?_
    rintro r k₂ S₂ ⟨h₂, hr⟩
    have hpr : p ≠ r := by
      rintro rfl
      exact absurd hr.1 (by simp)
    refine emits_done ⟨_, _, h₂, ⟨And.left, ?_, ?_, ?_⟩, by simp⟩
    · exact ⟨Holdings.Widens.seen.reg, fun _ _ => id, fun _ => .inr, fun _ => id⟩
    · exact .tagged (by simp) hpr (by simp) (ht.resolve_left hd)
    · refine ⟨?_, ?_, nofun⟩
      · rintro _ ⟨⟩ hq
        exact hr.2 hq
      · rintro _ _ ⟨⟩
        exact hp

variable {o : Operand} {src : FReg} {v : Value} {dst : Reg} {plan : IntPlan}

/-- A constant is converted when the code is emitted. -/
theorem converted_constant {d : Double} (hag : f.Agrees σ) (hs : s < f.sp)
    (hd : f.numberConstant? s = some d) (ho : K.operand? o = some d.toInt32.toInt64.toUInt64) :
    f.Converted σ K s o := by
  have henv := hag.numberConstant? hs hd
  refine ⟨Value.isNumber_iff_double?.2 ⟨d, henv⟩, _, ho, ?_, fun hn =>
    absurd (hn.symm.trans hd) nofun⟩
  rw [toUInt32_signExtend, Value.asInt32, henv]
  rfl

/-- An integer is its own conversion. -/
theorem converted_int32 (hag : f.Agrees σ) (hs : s < f.sp) (ht : f.knownType s = .int32)
    (ho : K.operand? o = some (σ.env s).payload) : f.Converted σ K s o := by
  obtain ⟨i, hi⟩ := Value.eq_int32_of_tag ((hag.type s hs).1 .int32 (by rw [ht]; rfl))
  rw [hi] at ho
  refine ⟨by rw [hi]; rfl, _, ho, ?_, fun _ => ?_⟩
  · rw [hi, Value.asInt32_int32]
    simp [Value.payload]
  · rw [hi, Value.asInt32_int32]

/-- What is left to convert is a double or unknown. -/
theorem knownType_of_isIntConvertible (hconv : isIntConvertible f s)
    (hc : f.numberConstant? s = none) (ht : f.knownType s ≠ .int32) :
    f.knownType s = .double ∨ f.knownType s = .unknown := by
  unfold isIntConvertible at hconv
  cases hv : f.constant? s with
  | some v =>
    rw [hv] at hconv
    obtain ⟨d, hd⟩ := Value.isNumber_iff_double?.1 hconv
    rw [Frame.numberConstant?, hv, Option.bind_some, hd] at hc
    cases hc
  | none =>
    rw [hv] at hconv
    cases hk : f.knownType s with
    | int32 => exact absurd hk ht
    | double => exact .inl rfl
    | unknown => exact .inr rfl
    | _ =>
      rw [hk] at hconv
      cases hconv

/-- The plan for an operand that is overwritten. -/
theorem planOwned_emits (hag : f.Agrees σ) (h : S.Loading E σ f K H k) (hs : s < f.sp)
    (hconv : isIntConvertible f s) :
    Emits E (liftM (planOwned s)) k S fun x k' S' => ∃ K' H', S'.Loading E σ f K' H' k' ∧
      x.2.1.Planned f σ s K H (.reg x.1) K' H' ∧ K'.temp x.1 := by
  unfold planOwned
  refine emits_look ?_
  rw [h.view.numberConstant? s, h.view.knownType s]
  split
  · next d hd =>
    refine (loadTemp_emits h).step ?_
    rintro r k₁ S₁ ⟨h₁, hr⟩
    exact emits_done
      ⟨_, _, h₁, ⟨id, .fresh hr, .ready fun _ => converted_constant hag hs hd (by simp),
      .fresh hr⟩, by simp⟩
  · next hc ht =>
    refine (copyData_emits h hs (by rw [ht]; nofun)).step ?_
    rintro r k₁ S₁ ⟨h₁, hr⟩
    exact emits_done
      ⟨_, _, h₁, ⟨id, .fresh hr, .ready fun _ => converted_int32 hag hs ht (by simp),
      .fresh hr⟩, by simp⟩
  · next hc ht =>
    exact planConversion_emits h hs (knownType_of_isIntConvertible hconv hc ht)

/-- The plan for an operand that is only read. -/
theorem planRead_emits (hag : f.Agrees σ) (h : S.Loading E σ f K H k) (hs : s < f.sp)
    (hconv : isIntConvertible f s) :
    Emits E (liftM (planRead s)) k S fun x k' S' => ∃ K' H', S'.Loading E σ f K' H' k' ∧
      x.2.1.Planned f σ s K H x.1 K' H' ∧ ∀ n, x.1 = .imm n → f.numberConstant? s ≠ none := by
  unfold planRead
  refine emits_look ?_
  rw [h.view.numberConstant? s, h.view.knownType s]
  split
  · next d hd =>
    exact emits_done
      ⟨K, H, h, ⟨id, .refl K H, .ready fun _ => converted_constant hag hs hd rfl,
      nofun, nofun, nofun⟩, fun _ _ hn => absurd (hn.symm.trans hd) nofun⟩
  · next hc ht =>
    refine pinnedData_emits h hs (by rw [ht]; nofun) fun r pins k₁ S₁ h₁ hr => ?_
    refine emits_done
      ⟨_, _, h₁, ⟨And.left, .seen, .ready fun _ => converted_int32 hag hs ht (by simp),
      ?_, nofun, nofun⟩, nofun⟩
    rintro _ ⟨⟩
    exact hr
  · next hc ht =>
    refine (planConversion_emits h hs (knownType_of_isIntConvertible hconv hc ht)).step ?_
    rintro ⟨r, plan, pins⟩ k₁ S₁ ⟨K', H', h₁, hp, -⟩
    exact emits_done ⟨K', H', h₁, hp, nofun⟩

/-! ### Emitting conversions -/

/-- The number that a register has. -/
theorem exists_freg_same {m : Machine} (hv : v.isNumber) (hx : K.freg src = some v)
    (hw : K.Shown m) :
    ∃ d, m.freg src = some d ∧ d.same (v.double?.getD .zero) := by
  obtain ⟨d, hd, hs⟩ := hw.freg src v hx
  obtain ⟨a, ha, hda⟩ := Value.same_double? (hs hv) rfl
  rw [ha]
  exact ⟨d, hd, hda⟩

/-- The number is moved by what is in the scratch register on both ways. -/
theorem moveTowardsZero_emits {X : Machine → Prop} {a : Double} (hk : k.frame.Holding K)
    (hsrc : K.ftemp src) (hv : v.isNumber) (hx : K.freg src = some v)
    (ha : v.double?.getD .zero = a)
    (hS : S.Within { Scene.start F with slow := k.frame.Works E.room σ K H, exit := X }) :
    Emits E (moveTowardsZero src) k S fun _ k' S' => ∃ b : Double,
      b = (if a.lt .zero then Double.twoPow32 else Double.twoPow32.neg) ∧ k'.frame = k.frame ∧
      k'.fast = k.fast ∧ S'.Within { Scene.start F with
        slow := k.frame.Works E.room σ
          ((K.fput .scratch (.double b)).fput src (.double (a.add b))) H, exit := X } := by
  set b : Double := if a.lt .zero then Double.twoPow32 else Double.twoPow32.neg with hb
  have hne : src ≠ .scratch := by
    rintro rfl
    exact absurd (hk.freg_scratch.symm.trans hx) nofun
  have hmoved : ∀ e : Double, (K.fput .scratch (.double e)).freg src = some v := fun e => by
    simp [hne, hx]
  refine Emits.weaken ?_ hS
  refine emits_bind (emits_setF (s := .slow) (x := .scratch) (v := .double .zero)
    (fun _ => id) rfl k.frame.spare_scratch
    (fun hlt m hw => ⟨_, executes_zeroDouble hlt, fun _ => Value.same_refl _⟩) ?_)
  refine emits_bind (emits_test (s := .slow) (b := a.lt .zero) (fun _ => id) ?_ ?_)
  · intro m hw
    obtain ⟨x, hxm, hxa⟩ := exists_freg_same hv (hmoved _) hw.shown
    obtain ⟨y, hym, hy⟩ := hw.shown.freg .scratch (.double .zero) (by simp)
    have hy : y.same .zero := hy rfl
    have htest := Guard.tests_compareDouble ⟨.order .lt, false⟩ hxm hym
    rwa [DoubleCond.eval_same _ hxa hy, DoubleCond.eval_order, ha] at htest
  refine emits_bind
    (emits_setF (s := .slow) (x := .scratch) (v := .double Double.twoPow32.neg)
    (fun _ => id) rfl k.frame.spare_scratch
    (fun hlt m hw => ⟨_, executes_moveDoubleImm hlt, fun _ => Value.same_refl _⟩) ?_)
  refine emits_bind (emits_test (s := .slow) (b := true) (fun _ => id)
    (fun m _ => Guard.trips_always m) ?_)
  refine emits_bind
    (emits_label (s := .slow) (emits_bind (emits_link (s := .slow)
    (F := k.frame.Works E.room σ (K.fput .scratch (.double .zero)) (H ∧ a.lt .zero = true))
    (J := fun j m => j = k.slow.next.next.next ∧
      k.frame.Works E.room σ (K.fput .scratch (.double b)) H m) rfl
    ?_ (fun _ hm => absurd hm.facts.2 (Ne.symm Bool.false_ne_true)) ?_)))
  · rintro i m (⟨rfl, hm⟩ | hm | hm)
    · have hneg : b = Double.twoPow32.neg := by rw [hb, hm.facts.1.2]; rfl
      rw [Holdings.fput_fput, ← hneg] at hm
      exact .inr ⟨rfl, hm.imp fun hh => hh.1.1⟩
    · exact .inl hm
    · exact hm.elim
  refine emits_bind
    (emits_setF (s := .slow) (x := .scratch) (v := .double Double.twoPow32)
    (fun _ => id) rfl k.frame.spare_scratch
    (fun hlt m hw => ⟨_, executes_moveDoubleImm hlt, fun _ => Value.same_refl _⟩) ?_)
  refine emits_bind
    (emits_label (s := .slow) (emits_bind (emits_link (s := .slow)
    (F := k.frame.Works E.room σ (K.fput .scratch (.double b)) H)
    (J := fun _ _ => False) rfl (fun _ _ => .inl) (fun m hm => ?_) ?_)))
  · have hpos : b = Double.twoPow32 := by rw [hb, hm.facts.2]; rfl
    have hw : k.frame.Works E.room σ _ _ m := hm
    rw [Holdings.fput_fput, ← hpos] at hw
    exact hw.imp And.left
  refine emits_setF (s := .slow) (x := src) (v := .double (a.add b))
    (fun _ => id) rfl (hk.spare hsrc) (fun hlt m hw => ?_) ⟨b, rfl, rfl, rfl, .refl _⟩
  obtain ⟨x, hxm, hxa⟩ := exists_freg_same hv (hmoved _) hw.shown
  obtain ⟨y, hym, hy⟩ := hw.shown.freg .scratch (.double b) (by simp)
  rw [ha] at hxa
  exact ⟨_, executes_aluDouble hxm hym hlt, fun _ => Double.add_same hxa (hy rfl)⟩

/-- The second attempt at a conversion. -/
theorem retryTruncation_emits {failed : Jump} {done : Label} (hview : f.SameView k.frame)
    (hk : k.frame.Holding K) (hsrc : K.ftemp src) (hdst : K.temp dst) (hv : v.isNumber)
    (hx : K.freg src = some v) (hdone : done = k.fast) (hF : ∀ m, F m → k.frame.Works E.room σ
      ((K.fdrop src).put dst (Value.int32 v.asInt32).payload) H m)
    (hS : S.Within { Scene.start F with
      exit := k.frame.Carries E.room σ
      jump := fun j m => j = failed ∧ k.frame.Works E.room σ K
        (H ∧ (v.double?.getD .zero).truncateInt32? = none) m }) :
    Emits E (retryTruncation failed src dst done) k S fun _ k' S' =>
      S'.Armed E σ f ((K.fdrop src).put dst (Value.int32 v.asInt32).payload) H k' := by
  set a := v.double?.getD .zero with ha
  refine Emits.weaken ?_ hS
  refine emits_bind
    (emits_label (s := .slow) (emits_bind (emits_link (s := .slow)
    (F := k.frame.Works E.room σ K (H ∧ a.truncateInt32? = none)) (J := fun _ _ => False) rfl
    (fun _ _ hm => .inl hm) (fun _ hm => hm.elim) ?_)))
  refine (moveTowardsZero_emits hk hsrc hv hx ha.symm (.refl _)).bind ?_
  rintro _ ⟨_, _, l⟩ S₁ ⟨b, hb, rfl, rfl, hS₁⟩
  refine Emits.weaken ?_ hS₁
  refine emits_bind (emits_convert (s := .slow) (o := (a.add b).exactInt32?)
    (fun _ => id) (hk.temp dst hdst) (fun hlt m hw => ?_) ?_)
  · obtain ⟨x, hxm, hxs⟩ := hw.shown.freg src (.double (a.add b)) (by simp)
    have hconv := Guard.converts_convert hxm hlt
    have hxs : x.same (a.add b) := hxs rfl
    rwa [Double.exactInt32?_same hxs] at hconv
  refine emits_bind (emits_test (s := .slow) (b := true) (fun _ => id)
    (fun m _ => Guard.trips_always m) ?_)
  refine emits_bind (emits_linkExit (X := k.frame.Carries E.room σ)
    (J := fun j m => j = l.next ∧ k.frame.Works E.room σ
        ((K.fdrop src).put dst (Value.int32 v.asInt32).payload) H m) ?_ (fun _ => id) ?_)
  · rintro j m (⟨rfl, hm⟩ | ⟨rfl, hm⟩ | hm)
    · obtain ⟨⟨⟨hh, hout⟩, hsome⟩, -⟩ := hm.facts
      obtain ⟨i, hi⟩ := Option.isSome_iff_exists.1 hsome
      have hint : v.asInt32 = i := Double.toInt32_of_moved hout (hb ▸ hi)
      refine .inr ⟨rfl, hm.fewer ?_ fun _ => hh⟩
      rw [hi, hint]
      exact (Holdings.fdrop_fewer (Holdings.fewer_fput hk.freg_scratch)).put
    · exact .inl ⟨rfl, hm.carries⟩
    · exact hm.elim
  subst hdone
  refine emits_link (s := .fast) rfl (F := k.frame.Works E.room σ
        ((K.fdrop src).put dst (Value.int32 v.asInt32).payload) H) (J := fun _ _ => False)
        (fun _ _ => .inl) hF ⟨hview, (hk.fdrop src).put (.inl (hk.temp dst hdst)) _, ?_⟩
  exact { Scene.Within.refl _ with slow := fun _ hm => absurd hm.facts.2.symm Bool.false_ne_true }

/-- A double is converted, or the guard waits. -/
theorem truncate_emits {x : FReg} (h : S.Armed E σ f K H k) (hnum : (σ.env s).isNumber)
    (hr : K.temp dst) (hx : K.ftemp x) (hfreg : K.freg x = some (σ.env s)) :
    Emits E (applyPlan (.truncate x) dst) k S fun _ k' S' =>
      S'.Armed E σ f ((K.fdrop x).put dst (Value.int32 (σ.env s).asInt32).payload) H k' := by
  obtain ⟨a, ha⟩ := Value.isNumber_iff_double?.1 hnum
  refine Emits.weaken ?_ h.within
  refine emits_bind
    (emits_convert (s := .fast) (o := ((σ.env s).double?.getD .zero).truncateInt32?)
    (fun _ => id) (h.holding.temp dst hr) (fun hlt m hw => ?_) ?_)
  · obtain ⟨d, hd, hs⟩ := hw.shown.freg x _ hfreg
    obtain ⟨a', ha', hda⟩ := Value.same_double? (hs hnum) rfl
    rw [ha', Option.getD_some, ← Double.truncateInt32?_same hda]
    exact Guard.converts_truncate hd hlt
  refine emits_bind (emits_label (s := .fast) ?_)
  refine retryTruncation_emits (k := k.next .fast) (F := k.frame.Works E.room σ (K.put dst
    (Value.int32 (((σ.env s).double?.getD .zero).truncateInt32?.getD 0)).payload)
      (H ∧ ((σ.env s).double?.getD .zero).truncateInt32?.isSome))
    h.view h.holding hx hr hnum hfreg rfl (fun m hm => ?_) { Scene.Within.refl _ with jump := ?_ }
  · obtain ⟨i, hi⟩ := Option.isSome_iff_exists.1 hm.facts.2
    rw [hi] at hm
    have hint : (σ.env s).asInt32 = i := Double.toInt32_of_truncateInt32? hi
    rw [hint]
    exact hm.fewer Holdings.fewer_fdrop.put And.left
  · rintro j m (hm | hm)
    · exact hm
    · exact hm.elim

/-- A value of unknown type is converted, or the guards wait. -/
theorem tagged_emits {p : Reg} (h : S.Armed E σ f K H k) (hs : s < f.sp) (hr : K.temp dst)
    (hp : H → K.reg p = some (σ.env s).payload) :
    Emits E (applyPlan (.tagged s p) dst) k S fun _ k' S' =>
      S'.Armed E σ f (K.put dst (Value.int32 (σ.env s).asInt32).payload)
        (H ∧ (σ.env s).isNumber) k' := by
  refine Emits.weaken ?_ h.within
  refine emits_bind (emits_tagOperand fun l ht => ?_)
  have htest : ∀ {L : Holdings} {H' : Prop} (t : Tag) m, k.frame.Works E.room σ L H' m →
      (Guard.compare .notEqual (k.frame.tagPlace s) (.ofTag t)).Tests m
        (!decide ((σ.env s).tag = t)) := by
    intro L H' t m hw
    rw [← Cond.eval_notEqual_tag]
    exact Guard.tests_compare (hw.carries.tracks.operand_tagPlace (h.lt hs) ht) (m.operand?_ofTag t)
  refine emits_bind (emits_test (s := .fast) (fun _ => id) (htest .int32) ?_)
  refine emits_bind (emits_set (s := .fast) (w := (Value.int32 (σ.env s).asInt32).payload)
    (fun _ => id) rfl (h.holding.temp dst hr) (fun hlt m hw => ?_) ?_)
  · obtain ⟨i, hi⟩ := Value.eq_int32_of_tag (by simpa using hw.facts.2)
    have hpay := hw.shown.reg p _ (hp hw.facts.1)
    rw [hi] at hpay ⊢
    rw [Value.asInt32_int32]
    exact executes_move hpay hlt
  refine emits_bind (emits_label (s := .fast) ?_)
  refine emits_bind
    (emits_label (s := .slow) (emits_bind (emits_link (s := .slow)
    (F := k.frame.Works E.room σ K (H ∧ (!decide ((σ.env s).tag = .int32)) = true))
    (J := fun _ _ => False) rfl ?_ (fun _ hm => hm.elim) ?_)))
  · rintro j m (hm | hm)
    · exact .inl hm
    · exact hm.elim
  refine emits_bind (emits_test (s := .slow) (fun _ => id) (htest .double) ?_)
  refine emits_bind
    (emits_setF (s := .slow) (x := .scratch) (v := σ.env s) (fun _ => id) rfl
    k.frame.spare_scratch (fun hlt m hw => ?_) ?_)
  · have hpay := hw.shown.reg p _ (hp hw.facts.1.1)
    refine ⟨_, executes_moveBitsToDouble hpay hlt, fun _ => ?_⟩
    obtain ⟨d, hd⟩ := Value.eq_double_of_tag (by simpa using hw.facts.2)
    rw [hd]
    exact Double.same_refl _
  refine emits_bind (emits_convert (s := .slow)
    (o := ((σ.env s).double?.getD .zero).truncateInt32?) (fun _ => id) (h.holding.temp dst hr)
    (fun hlt m hw => ?_) ?_)
  · obtain ⟨v, hv⟩ := Value.eq_double_of_tag (by simpa using hw.facts.2)
    obtain ⟨d, hd, hs⟩ := hw.shown.freg .scratch (σ.env s) (by simp)
    rw [hv] at hs ⊢
    have hs : d.same v := hs rfl
    have hconv := Guard.converts_truncate hd hlt
    rwa [Double.truncateInt32?_same hs] at hconv
  refine emits_bind (emits_test (s := .slow) (b := true) (fun _ => id)
    (fun m _ => Guard.trips_always m) ?_)
  have hback : ∀ m, k.frame.Works E.room σ ((K.fput .scratch (σ.env s)).put dst
        (Value.int32 (((σ.env s).double?.getD .zero).truncateInt32?.getD 0)).payload)
      ((((H ∧ (!decide ((σ.env s).tag = .int32)) = true) ∧
        (!decide ((σ.env s).tag = .double)) = false) ∧
        ((σ.env s).double?.getD .zero).truncateInt32?.isSome) ∧ true = true) m →
      k.frame.Works E.room σ (K.put dst (Value.int32 (σ.env s).asInt32).payload)
        (H ∧ (σ.env s).isNumber) m := by
    intro m hm
    obtain ⟨⟨⟨⟨hh, -⟩, hd⟩, hsome⟩, -⟩ := hm.facts
    obtain ⟨i, hi⟩ := Option.isSome_iff_exists.1 hsome
    rw [hi] at hm
    have hint : (σ.env s).asInt32 = i := Double.toInt32_of_truncateInt32? hi
    rw [hint]
    refine hm.fewer (Holdings.fewer_fput h.holding.freg_scratch).put fun _ => ⟨hh, ?_⟩
    exact Value.isNumber_iff_tag.2 (.inr (by simpa using hd))
  refine emits_bind (emits_linkExit (X := k.frame.Carries E.room σ)
    (J := fun j m => (j = k.slow.next.next.next ∧ k.frame.Works E.room σ (K.put dst
      (Value.int32 (σ.env s).asInt32).payload) (H ∧ (σ.env s).isNumber) m) ∨
      (j = k.slow.next.next ∧ k.frame.Carries E.room σ m)) ?_ (fun _ => id) ?_)
  · rintro j m (⟨rfl, hm⟩ | ⟨rfl, hm⟩ | ⟨rfl, hm⟩ | hm)
    · exact .inr (.inl ⟨rfl, hback m hm⟩)
    · exact .inr (.inr ⟨rfl, hm.carries⟩)
    · exact .inl ⟨rfl, hm.carries⟩
    · exact hm.elim
  refine emits_bind (emits_linkExit (X := k.frame.Carries E.room σ)
    (J := fun j m => j = k.slow.next.next.next ∧ k.frame.Works E.room σ (K.put dst
      (Value.int32 (σ.env s).asInt32).payload) (H ∧ (σ.env s).isNumber) m) ?_ (fun _ => id) ?_)
  · rintro j m (hm | hm)
    · exact .inr hm
    · exact .inl hm
  refine emits_link (s := .fast) rfl (F := k.frame.Works E.room σ (K.put dst
      (Value.int32 (σ.env s).asInt32).payload) (H ∧ (σ.env s).isNumber)) (J := fun _ _ => False)
    (fun _ _ => .inl) (fun m hm => hm.imp fun hh => ⟨hh.1, ?_⟩) ?_
  · exact Value.isNumber_iff_tag.2 (.inl (by simpa using hh.2))
  · refine ⟨h.view, h.holding.put (.inl (h.holding.temp dst hr)) _, ?_⟩
    exact { Scene.Within.refl _ with slow := fun _ hm => absurd hm.facts.2.symm Bool.false_ne_true }

theorem converted_put (hnum : (σ.env s).isNumber) :
    f.Converted σ (K.put dst (Value.int32 (σ.env s).asInt32).payload) s (.reg dst) :=
  ⟨hnum, _, by simp, by simp [Value.payload], fun _ => rfl⟩

/-- A plan that has been applied has converted its operand. -/
theorem applyPlan_emits (hag : f.Agrees σ) (hs : s < f.sp) (h : S.Armed E σ f K H k)
    (hp : plan.Prepared f σ K H s (.reg dst)) :
    Emits E (applyPlan plan dst) k S fun _ k' S' => ∃ K',
      S'.Armed E σ f K' (H ∧ (σ.env s).isNumber) k' ∧ plan.Applied K dst K' ∧
      (H ∧ (σ.env s).isNumber → f.Converted σ K' s (.reg dst)) := by
  cases hp with
  | ready hc =>
    exact emits_pure ⟨K, h.imp fun hh => ⟨hh, (hc hh).isNumber⟩,
      ⟨fun _ _ => rfl, fun _ _ => rfl, rfl, rfl⟩, fun hh => hc hh.1⟩
  | truncate hr hx hfreg ht =>
    have hnum := (hag.type s hs).2 ht
    exact (truncate_emits h hnum hr hx hfreg).mono fun _ _ _ h' =>
      ⟨_, h'.imp fun hh => ⟨hh, hnum⟩, IntPlan.applied_fdrop, fun _ => converted_put hnum⟩
  | tagged hr hne hpay ht =>
    exact (tagged_emits h hs hr hpay).mono fun _ _ _ h' =>
      ⟨_, h', IntPlan.applied_put, fun hh => converted_put hh.2⟩

/-- Emitting the conversion of an operand that is only read. Another register keeps its contents. -/
theorem applyRead_emits {r : Reg} (hag : f.Agrees σ) (hs : s < f.sp) (h : S.Armed E σ f K H k)
    (hp : plan.Prepared f σ K H s o) (hr : plan = .ready ∨ o ≠ .reg r) :
    Emits E (applyRead o plan) k S fun _ k' S' => ∃ K',
      S'.Armed E σ f K' (H ∧ (σ.env s).isNumber) k' ∧ K'.reg r = K.reg r ∧ K'.temp = K.temp ∧
      K'.ftemp = K.ftemp ∧ (H ∧ (σ.env s).isNumber → f.Converted σ K' s o) := by
  cases o with
  | reg q =>
    rcases hr with rfl | hne
    · cases hp with
      | ready hc =>
        exact emits_pure ⟨K, h.imp fun hh => ⟨hh, (hc hh).isNumber⟩, rfl, rfl, rfl,
          fun hh => hc hh.1⟩
    · refine (applyPlan_emits hag hs h hp).mono ?_
      rintro _ k' S' ⟨K', h', ha, hc⟩
      exact ⟨K', h', ha.reg r fun hr => hne (hr ▸ rfl), ha.temp, ha.ftemp, hc⟩
  | imm n | tag _ | payload _ =>
    cases hp with
    | ready hc =>
      exact emits_pure ⟨K, h.imp fun hh => ⟨hh, (hc hh).isNumber⟩, rfl, rfl, rfl,
        fun hh => hc hh.1⟩

end CompileM

end FastPath
