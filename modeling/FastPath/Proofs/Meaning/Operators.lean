import FastPath.Proofs.Generic.Same
import FastPath.Proofs.Meaning.Producing
import FastPath.Proofs.Types.Set

/-!
# Guards, stub calls and results

The emitters of the operators are put together from a few forms: operands are guarded, the
guards lead to a stub, a result is pushed, and both paths meet. Here is one rule for each.

An operator may come to whatever its stub makes of the operands: `Frame.answer`. Operands that the
frame handles as doubles may be in memory in either form, so there can be more than one answer,
but they are all the same number.
-/

namespace FastPath

open Frame AsmM

attribute [local instance] Cell.written

namespace Cond

theorem eval_notEqual_tag (t u : Tag) : notEqual.eval t.word u.word = !decide (t = u) := by
  cases t <;> cases u <;> rfl

end Cond

/-- Sign extension keeps the low half. -/
theorem toUInt32_signExtend (i : Int32) : i.toInt64.toUInt64.toUInt32 = i.toUInt32 := by
  apply UInt32.toBitVec_inj.1
  change (i.toBitVec.signExtend 64).setWidth 32 = i.toBitVec
  refine BitVec.eq_of_getElem_eq fun j hj => ?_
  rw [BitVec.getElem_setWidth, BitVec.getLsbD_signExtend]
  simp [hj, show j < 64 by omega]

variable {v : Value}

theorem Value.eq_int32_of_tag (h : v.tag = .int32) : ∃ i, v = int32 i := by
  cases v <;> cases h
  exact ⟨_, rfl⟩

theorem Value.eq_double_of_tag (h : v.tag = .double) : ∃ d, v = double d := by
  cases v <;> cases h
  exact ⟨_, rfl⟩

theorem Value.isNumber_iff_double? : v.isNumber ↔ ∃ d, v.double? = some d := by
  rw [isNumber_eq, Option.isSome_iff_exists]

/-! ### Types of results -/

namespace HeapM

variable {α β : Type} {x : HeapM α} {y : α → HeapM β} {b : β} {a : α} {h h' : Heap}

theorem look_eq_ok {g : Heap → Except OpError α} (hx : look g h = .ok a h') :
    g h = .ok a ∧ h' = h := by
  rw [look_run] at hx
  cases hg : g h with
  | ok a' =>
    rw [hg] at hx
    cases hx
    exact ⟨rfl, rfl⟩
  | error e =>
    rw [hg] at hx
    cases hx

end HeapM

namespace Stub

variable {stub : Stub} {us : List Value} {r : Value} {h h' : Heap}

/-- The types of the results of a stub, if all that is known is which stub it is. -/
def types (stub : Stub) : TypeSet := (CompileM.intrinsicTypes? stub).elim .unknown .of

theorem isOperator_of_isBitwise (hs : stub.isBitwise) : stub.isOperator := by
  cases stub <;> first | rfl | cases hs

/-- The type of a result is the one of the stub. -/
theorem describes_types (hs : stub.isBitwise) (hlen : us.length = stub.uses)
    (hrun : stub.apply us h = .ok r h') : stub.types.knownType.Describes r := by
  have hnumber : r.isNumber → KnownType.double.Describes r := fun hr => ⟨nofun, fun _ => hr⟩
  match stub, us with
  | .bit op, [a, b] =>
    obtain ⟨hok, -⟩ := HeapM.look_eq_ok hrun
    simp only [Heap.bitOp, bind, Except.bind] at hok
    cases ha : h.toInt32 a with
    | error e => simp [ha] at hok
    | ok i =>
      cases hb : h.toInt32 b with
      | error e => simp [ha, hb] at hok
      | ok j =>
        rw [ha, hb] at hok
        cases hok
        cases op with
        | ursh => exact hnumber (Value.isNumber_number _)
        | _ => exact KnownType.describes_ofValue (.int32 _)
  | .bitNot, [v] =>
    obtain ⟨hok, -⟩ := HeapM.look_eq_ok hrun
    cases hv : h.toInt32 v <;> simp [Heap.bitNot, hv, Except.map] at hok
    exact hok ▸ KnownType.describes_ofValue (.int32 _)

theorem mightBe_types (hs : stub.isBitwise) (hlen : us.length = stub.uses)
    (hrun : stub.apply us h = .ok r h') : stub.types.mightBe r.tag := by
  have hknown : stub.types = .ofKnown stub.types.knownType := by
    cases stub with
    | bit op | arith op => cases op <;> rfl
    | _ => rfl
  rw [hknown]
  exact TypeFlags.has_ofKnown_iff.2 (describes_types hs hlen hrun)

end Stub

/-! ### Answers -/

/-- The oracle is right about what the operation may come to, and a result is monitored for
nothing else. -/
structure Context.Trusts (c : Context) (E : Placement) (A : Answer) : Prop where
  pushed : ∀ r h, A.ok r h → (c.oracle.pushed c.pc).mightBe r.tag
  monitored : ∀ promised, E.monitored = some promised →
    promised = (c.oracle.pushed c.pc).flags.bits

theorem Context.Trusts.admits {c : Context} {E : Placement} {A : Answer} {r : Value} {h : Heap}
    (htrust : c.Trusts E A) (ha : A.ok r h) : E.Admits r := by
  intro promised hp
  rw [htrust.monitored promised hp]
  exact TypeSet.contains_ofBits_bits (htrust.pushed r h ha)

namespace Frame

variable {f f' : Frame} {N n : Nat} {σ : Store} {m : Machine} {stub : Stub} {r v : Value} {h : Heap}

/-- What a stub may make of the operands of a frame. -/
def answer (f : Frame) (σ : Store) (stub : Stub) : Answer where
  ok r h := ∃ us, f.Supplies σ stub.uses us ∧ stub.apply us σ.heap = .ok r h
  error e h := ∃ us, f.Supplies σ stub.uses us ∧ stub.apply us σ.heap = .error e h

variable {E : Placement}

theorem covers_answer (hstub : stub.isOperator) (hdefs : stub.defs ≠ 0) (huses : stub.uses ≤ f.sp)
    (hadmits : ∀ r h, (f.answer σ stub).ok r h → E.Admits r) :
    (f.answer σ stub).Covers E f σ stub where
  isOperator := hstub
  defs := hdefs
  uses := huses
  ok us r h hpass hrun := ⟨⟨us, hpass, hrun⟩, hadmits r h ⟨us, hpass, hrun⟩⟩
  error us _ _ hpass hrun := ⟨us, hpass, hrun⟩

theorem covers_bitwise {c : Context} (htrust : c.Trusts E (f.answer σ stub))
    (hstub : stub.isBitwise) (hdefs : stub.defs ≠ 0) (huses : stub.uses ≤ f.sp) :
    (f.answer σ stub).Covers E f σ stub :=
  covers_answer (Stub.isOperator_of_isBitwise hstub) hdefs huses fun _ _ => htrust.admits

theorem describes_answer (hstub : stub.isBitwise) (ha : (f.answer σ stub).ok r h) :
    stub.types.knownType.Describes r := by
  obtain ⟨us, hpass, hrun⟩ := ha
  exact Stub.describes_types hstub hpass.1 hrun

theorem SameView.numberConstant? (h : f.SameView f') (s : Slot) :
    f'.numberConstant? s = f.numberConstant? s := by
  simp only [Frame.numberConstant?, h.constant?_eq]

theorem Agrees.numberConstant? {s : Slot} {d : Double} (h : f.Agrees σ) (hs : s < f.sp)
    (hd : f.numberConstant? s = some d) : (σ.env s).double? = some d := by
  obtain ⟨v, hv, hdv⟩ := Option.bind_eq_some_iff.1 hd
  rwa [h.constant s hs v hv]

/-- The values of the slots are among what memory may hold for them. -/
theorem Agrees.supplies_one (ha : f.Agrees σ) (hs : 1 ≤ f.sp) :
    f.Supplies σ 1 [σ.env (f.peek 1)] := by
  refine ⟨rfl, fun i u hu => ?_⟩
  obtain ⟨hi, rfl⟩ := List.getElem?_eq_some_iff.1 hu
  obtain rfl : i = 0 := Nat.lt_one_iff.1 hi
  exact .refl (ha.type (f.peek 1) (by simp only [peek]; omega)).2

theorem Agrees.supplies_two (ha : f.Agrees σ) (hs : 2 ≤ f.sp) :
    f.Supplies σ 2 [σ.env (f.peek 2), σ.env (f.peek 1)] := by
  refine ⟨rfl, fun i u hu => ?_⟩
  match i, hu with
  | 0, rfl => exact .refl (ha.type (f.peek 2) (by simp only [peek]; omega)).2
  | 1, rfl =>
    have hone : f.sp - 2 + 1 = f.peek 1 := by simp only [peek]; omega
    rw [hone]
    exact .refl (ha.type _ (by simp only [peek]; omega)).2

/-- What memory may hold for two operands. -/
theorem Supplies.two {us : List Value} (h : f.Supplies σ 2 us) (hs : 2 ≤ f.sp) :
    ∃ a b, us = [a, b] ∧ (f.knownType (f.peek 2)).Fits a (σ.env (f.peek 2)) ∧
      (f.knownType (f.peek 1)).Fits b (σ.env (f.peek 1)) := by
  obtain ⟨hlen, hfits⟩ := h
  match us, hlen with
  | [a, b], _ =>
    have hone : f.sp - 2 + 1 = f.peek 1 := by simp only [peek]; omega
    have hb := hfits 1 b rfl
    rw [hone] at hb
    exact ⟨a, b, rfl, hfits 0 a rfl, hb⟩

/-! ### Frames with a result -/

theorem peek_lt (hn : 0 < n) (hs : n ≤ f.sp) : f.peek n < f.sp :=
  Nat.sub_lt (Nat.lt_of_lt_of_le hn hs) hn

theorem replaces_pushSynced (hs : f.Sound none) (types : TypeSet) :
    f.Replaces (f.pushSynced types) f.sp types.knownType where
  sound := hs.pushSynced types
  le := Nat.le_refl _
  sp := rfl
  below s hlt := by rw [pushSynced, entry_push _ _ _ hs.sp_le, if_neg (Nat.ne_of_lt hlt)]
  role := by rw [pushSynced, entry_push_self hs.sp_le]; rfl
  type := by rw [pushSynced, entry_push_self hs.sp_le]; rfl
  continues := ⟨rfl, rfl, Nat.le_max_left _ _, rfl, rfl⟩

theorem ends_pushConstant (hs : f.Sound none) (v : Value) :
    f.Ends (f.pushConstant v) (f.sp + 1) where
  sound := hs.pushConstant v
  sp := rfl
  continues := ⟨rfl, rfl, Nat.le_max_left _ _, rfl, rfl⟩

theorem Carries.popN (h : f.Carries N σ m) (hn : n ≤ f.sp) : (popN n f).Carries N σ m :=
  ⟨h.tracks.popN hn, h.heap, h.room⟩

theorem Carries.pushConstant (h : f.Carries N σ m) (v : Value) (hroom : f.sp < m.slots.size) :
    (f.pushConstant v).Carries N (σ.put f.sp v σ.heap) m :=
  ⟨h.tracks.pushConstant v hroom, h.heap, h.room⟩

end Frame

/-- Registers for a result of the given type. -/
inductive IntResult.Planned (payload : Reg) (K : Holdings) : IntResult → KnownType → Prop
  | wide {x : FReg} : K.ftemp x → Planned payload K ⟨payload, some x, none⟩ .double
  | tagged {t : Reg} : K.temp t → t ≠ payload → Planned payload K ⟨payload, none, some t⟩ .unknown
  | narrow : Planned payload K ⟨payload, none, none⟩ .int32

/-- The value in registers. -/
def IntResult.Holds (res : IntResult) (K : Holdings) (v : Value) : Prop :=
  match res.wide, res.tag with
  | some x, _ => K.freg x = some v
  | none, some t => K.reg t = some v.tag.word ∧ K.reg res.payload = some v.payload
  | none, none => K.reg res.payload = some v.payload

namespace CompileM

variable {α β γ : Type} {E : Placement} {c : Context} {k : Cursor} {S : Scene} {σ : Store}
  {f g : Frame} {K : Holdings} {H : Prop} {A : Answer} {s : Slot} {slow : Bool} {n d : Nat}
  {t : KnownType}

/-! ### Operands -/

/-- The register bound to the payload of a slot, to be kept. -/
theorem pinnedData_emits {β : Type} {s : Slot} {x : Reg → List Reg → FrameM β}
    {Q : β → Cursor → Scene → Prop} (h : S.Loading E σ f K H k) (hs : s < f.sp)
    (ht : f.knownType s ≠ .double)
    (hx : ∀ r pins k' S', S'.Loading E σ f (K.put r (σ.env s).payload)
        (H ∧ ∀ u, K.reg r = some u → u = (σ.env s).payload) k' → ¬K.temp r →
      Emits E (liftM (x r pins)) k' S' Q) :
    Emits E (liftM (do
      let r ← FrameM.dataReg s
      let pins ← pin r
      x r pins)) k S Q := by
  refine (dataReg_emits h hs).step ?_
  rintro r k₁ S₁ ⟨h₁, hown, hdata⟩
  have hb := (h₁.holding.sound.data_iff _ r).2 ⟨h₁.holding.sound.live_backing (h₁.lt hs), hdata⟩
  -- the register may have been looked at before, and then it still has what was found
  have hnote := h₁.note fun m hw u hu => Option.some.inj ((hw.shown.reg r u hu).symm.trans
    (hw.carries.reg_of_data (h₁.lt hs) (h₁.view.knownType s ▸ ht) hown hdata))
  refine (pinData_emits hnote hs ht hown hdata).step fun pins k₂ S₂ h₂ =>
    hx r pins k₂ S₂ h₂ fun hr => ?_
  have := h₁.holding.temp r hr
  rw [hb] at this
  cases this

/-! ### Slow paths -/

variable {stub : Stub} {v : Value}

/-- Going to the slow path, if there is one. -/
theorem slowCall?_produces {x : Bool → CompileM β} {Q : β → Cursor → Scene → Prop}
    (h : S.Armed E σ f K H k) (hA : A.Covers E f σ stub)
    (hx : ∀ slow k' S', S'.Releasing E σ A slow k.frame (f.sp - stub.uses) f.sp K H k' →
      Produces E c (x slow) k' S' Q) :
    Produces E c (do
      let slow ← liftM hasExits
      if slow = true then (do liftM (slowCall stub 0); x slow) else x slow) k S Q := by
  refine produces_bind
    (Emits.lift (Emits.weaken (emits_hasExits fun slow => ?_) h.within))
  cases slow with
  | false =>
    refine hx false k _ ⟨.refl h.holding.sound, h.view.sp, ?_⟩
    exact ⟨fun _ => id, fun _ hm => hm.elim, fun _ hm => absurd hm.1 Bool.false_ne_true,
      fun _ _ hm => hm.elim, fun _ _ hm => hm.elim, fun _ _ hm => hm.elim⟩
  | true =>
    refine (slowCall_emits (A := A) ⟨h.view, h.holding, ?_⟩ hA).next fun _ k' S' h' =>
      hx true k' S' h'
    exact ⟨fun _ => id, fun _ hm => hm.elim, fun _ hm => hm.2, fun _ _ hm => hm.elim,
      fun _ _ hm => hm.elim, fun _ _ hm => hm.elim⟩

/-- The slow path comes back, if there is one. -/
theorem rejoin?_produces {changes : Nat} {v : β} (h : S.Pushed E σ A slow g n t k)
    (ht : ∀ r h, A.ok r h → t.Describes r) :
    Produces E c (if slow = true then (do liftM (rejoin changes); return v) else return v) k S
      fun _ k' S' => S'.Yields E σ A g n k' := by
  cases slow with
  | true => exact (rejoin_emits h ht).next fun _ _ _ h' => produces_pure h'
  | false => exact produces_pure h.yields

/-! ### Results -/

/-- A constant takes the place of the operands. -/
theorem replaceByConstant_emits (h : S.Loading E σ f K H k) (hd : d ≤ f.sp)
    (hA : H → A.ok v σ.heap) :
    Emits E (replaceByConstant d v) k S fun _ k' S' =>
      S'.Yields E σ A f (f.sp - d) k' := by
  have hle : d ≤ k.frame.sp := h.view.sp ▸ hd
  have hsp : (popN d k.frame).sp = f.sp - d := by rw [sp_popN, h.view.sp]
  have hclears := Clears.popN h.holding.sound hle
  have hends := ends_pushConstant hclears.sound v
  refine Emits.weaken (emits_updateFrame (g := fun f => (popN d f).pushConstant v)
    (F := ((popN d k.frame).pushConstant v).Result E.room σ (f.sp - d) A)
    (Nat.le_trans hclears.continues.maxSp hends.continues.maxSp) (fun hN m hw => ?_) ?_) h.within
  · have hroom : (popN d k.frame).sp < m.slots.size :=
      Nat.lt_trans (Nat.lt_of_lt_of_le (Nat.lt_of_lt_of_le (Nat.lt_succ_self _)
        (Nat.le_max_right _ _)) hN) hw.carries.room
    exact ⟨v, σ.heap, hA hw.facts, hsp ▸ (hw.carries.popN hle).pushConstant v hroom⟩
  · refine ⟨h.view.ends (hclears.ends (hsp ▸ hends)), ?_⟩
    exact Scene.within_of_fast (fun _ => id) fun _ _ hm => hm.elim

/-! ### Results of integer operations -/

/-- An integer result is pushed in the form that was planned. -/
theorem pushInt_emits {A : Answer} {g : Frame} {slow : Bool} {n : Nat} {payload : Reg}
    (types : TypeSet) {res : IntResult} {t : KnownType} (h : S.Releasing E σ A slow g n n K H k)
    (hp : res.Planned payload K t) (hv : res.Holds K v)
    (ht : t = .unknown → types.knownType = .unknown) (htag : t = .int32 → H → v.tag = .int32)
    (hnum : H → v.isNumber) (hA : H → A.ok v σ.heap) :
    Emits E (liftM (pushInt res types)) k S fun _ k' S' => S'.Pushed E σ A slow g n t k' := by
  cases hp with
  | wide hx =>
    refine (free_emits h).step fun _ k₁ S₁ h₁ => ?_
    exact (pushDouble_emits h₁ hv hnum hA).step fun _ _ _ h₂ => emits_done h₂
  | tagged htemp hne =>
    have hunknown := ht rfl
    refine (pushRegs_emits types h hne (by rw [hunknown]; nofun) hv.1 hv.2
      (fun _ tag htag => ?_) hA).step fun _ _ _ h₂ => emits_done (hunknown ▸ h₂)
    rw [hunknown] at htag
    cases htag
  | narrow =>
    refine (pushTyped_emits h hv (fun hh tag hint => ?_) hA).step fun _ _ _ h₂ =>
      emits_done h₂
    cases hint
    exact htag rfl hh

/-! ### Stub calls -/

/-- An operation that is one stub call. -/
theorem emitStubTyped_produces {types : TypeSet} (h : S.Loading E σ f K H k)
    (hA : A.Covers E f σ stub) (ht : ∀ r h, A.ok r h → types.knownType.Describes r) :
    Produces E c (emitStubTyped stub 0 types) k S fun _ k' S' =>
      S'.Yields E σ A f (f.sp - stub.uses) k' := by
  refine Produces.weaken ?_ h.within
  unfold emitStubTyped
  refine produces_bind (Emits.lift (emits_syncAndKill h.holding.sound
    (fun m hw => hw.carries) fun f₁ l hview hs hsync hbare => ?_))
  have hA₁ := hA.view (h.view.trans hview)
  refine produces_bind (Emits.lift (emits_callOperator (k := { k with frame := f₁, fast := l })
    hA₁.ok hA₁.error (s := .fast) hA.isOperator hA.defs hA₁.uses (fun m hm => hm.stored hsync)
    (fun _ _ hm => hm.elim) ?_))
  -- neither the stack pointer nor the new entry matters to the machine
  have hclears := Clears.popN hs hA₁.uses
  have hreplaces := hclears.replaces (replaces_pushSynced hclears.sound types)
  rw [sp_popN] at hreplaces
  have hbare' : ((popN stub.uses f₁).pushSynced types).Bare := by
    intro s hs
    rw [pushSynced, entry_push _ _ _ hclears.sound.sp_le]
    split
    · exact ⟨rfl, rfl⟩
    · next hne =>
      have hlt : s < (popN stub.uses f₁).sp :=
        Nat.lt_of_le_of_ne (Nat.le_of_lt_succ hs) hne
      rw [hclears.entry s hlt]
      exact hbare s (Nat.lt_of_lt_of_le hlt hclears.sp)
  refine produces_bind (Emits.lift (emits_updateFrame hclears.continues.maxSp
    (fun _ _ => id) ?_))
  rw [if_neg hA.defs]
  refine produces_bind (Emits.lift (emits_updateFrame
    (g := fun f => f.pushSynced types) (Nat.le_max_left _ _)
    (F := ((popN stub.uses f₁).pushSynced types).Result E.room σ (f.sp - stub.uses) A) ?_ ?_))
  · rintro - m ⟨r, ha, hans⟩
    have hc := hans.carries hreplaces (ht r _ ha) hbare'
    rw [hview.sp, h.view.sp] at hc
    exact ⟨r, _, ha, hc⟩
  refine produces_bind (Emits.lift (emits_bind (emits_label (s := .fast)
    (emits_bind (emits_frame (emits_complete (produces_pure ⟨?_, ?_⟩)))))))
  · have hends := (h.view.trans hview).ends hreplaces.ends
    rwa [hview.sp, h.view.sp] at hends
  · exact Scene.within_of_fast (fun _ => id) fun _ _ => id

/-- The types that are given to the result of a stub are types of all that it may come to. -/
theorem produces_stubTypes {Q : TypeSet → Cursor → Scene → Prop}
    (htrust : c.Trusts E (f.answer σ stub)) (hstub : stub.isBitwise)
    (h : ∀ types, (∀ r h, (f.answer σ stub).ok r h → types.knownType.Describes r) → Q types k S) :
    Produces E c (stubTypes stub) k S Q := by
  have hintrinsic : ∀ flags, intrinsicTypes? stub = some flags →
      ∀ r h, (f.answer σ stub).ok r h → flags.has r.tag := by
    rintro flags hflags r h ⟨us, hpass, hrun⟩
    have hr := Stub.mightBe_types hstub hpass.1 hrun
    rwa [Stub.types, hflags] at hr
  have hknown : ∀ types : TypeSet, (∀ r h, (f.answer σ stub).ok r h → types.mightBe r.tag) →
      Q types k S :=
    fun types ht => h types fun r h' ha => TypeSet.describes_knownType (ht r h' ha)
  unfold stubTypes pushedTypes
  refine produces_bind (produces_read (produces_pure ?_))
  split
  · cases hstub
  · cases hstub
  · cases hstub
  · exact produces_pure (hknown _ htrust.pushed)
  · next flags _ _ _ hflags =>
    dsimp only
    split
    · exact produces_pure (hknown _ (hintrinsic flags hflags))
    · refine produces_pure (hknown _ fun r h' ha => ?_)
      rw [TypeSet.mightBe, TypeFlags.has_inter, Bool.and_eq_true]
      exact ⟨htrust.pushed r h' ha, hintrinsic flags hflags r h' ha⟩

theorem emitStub_produces (htrust : c.Trusts E (f.answer σ stub)) (hstub : stub.isBitwise)
    (hdefs : stub.defs ≠ 0) (h : S.Loading E σ f K H k) (huses : stub.uses ≤ f.sp) :
    Produces E c (emitStub stub 0) k S fun _ k' S' =>
      S'.Yields E σ (f.answer σ stub) f (f.sp - stub.uses) k' := by
  refine produces_bind (produces_stubTypes htrust hstub fun types ht => ?_)
  exact emitStubTyped_produces h (covers_bitwise htrust hstub hdefs huses) ht

end CompileM

end FastPath
