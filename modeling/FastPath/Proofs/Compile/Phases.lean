import FastPath.Proofs.Compile.Operation

/-!
# The three phases of an emitter

An emitter first borrows the registers it needs, then emits guards and other code for the frame
it has by then, and at last gives the registers back, pushes its result and lets the slow path
come back. Each phase has a form of sketch: `Lent` says what has been borrowed since some
frame, `Armed` which registers have contents for the code of one frame, and `Releasing` what is
still to be given back. There is one rule for each step that an emitter takes in a phase.

## Main results

* `CompileM.guardTag_delivers`, `CompileM.guardNumber_delivers`: a guard on a slot whose type
  does not refute it.
* `CompileM.slowCall_delivers`, `CompileM.rejoin_delivers`: the round trip through the slow path.
-/

namespace FastPath

open FrameM AsmM

variable {v : Value} {f : Frame}

theorem Value.tag_ne_object (h : v.isNumber) : v.tag ≠ .object := by
  cases v <;> simp_all [Value.isNumber, Value.tag]

theorem Frame.SameView.stackBase {f' : Frame} (h : f.SameView f') : f'.stackBase = f.stackBase := by
  rw [Frame.stackBase, h.argCount, h.localCount, Frame.stackBase]

/-- The known type of a constant is that of its value. -/
theorem Frame.Ready.knownType_of_constant {D : Nat} {L : Loans} {s : Slot} (h : f.Ready D L)
    (hs : s < f.sp) (hc : f.constant? s = some v) : f.knownType s = .ofValue v :=
  (h.tracks_model h.room).type_of_constant (Frame.live_of_lt hs) hc

/-- The operand can be read as long as the loans stand. -/
def Operand.ReadsLoan (L : Loans) (o : Operand) : Prop := ∀ n g, o.Reads n (L.shape g)

/-- The loans without the registers of a result. -/
def IntResult.release (res : IntResult) (L : Loans) : Loans :=
  match res.wide, res.tag with
  | some r, _ => (L.dropTemp res.payload).dropFTemp r
  | none, some r => (L.dropTemp r).dropTemp res.payload
  | none, none => L.dropTemp res.payload

namespace Sketch

/-- Registers have been borrowed since the frame was the given one; nothing is open. -/
structure Lent (f : Frame) (L : Loans) (σ : Sketch) : Prop extends Quiet σ where
  loans : σ.loans = L
  view : f.SameView σ.frame

/-- Code is being emitted for one frame, in which registers of the given shape have contents;
the given branches are open. -/
structure Armed (f : Frame) (L : Loans) (P : Shape) (js : List Jump) (σ : Sketch) : Prop where
  frame : σ.frame = f
  loans : σ.loans = L
  fast : (σ.shape .fast).Covers P
  slow : σ.shape .slow = Shape.all
  opens : σ.opens.Perm js
  pending : σ.pending = false

/-- The slow path has been called, or there is none, and registers are being given back.
The stack starts at `b` and ends at `n`. -/
structure Releasing (slow : Bool) (b n : Nat) (L : Loans) (P : Shape) (σ : Sketch) : Prop where
  base : σ.frame.stackBase = b
  sp : σ.frame.sp = n
  loans : σ.loans = L
  fast : (σ.shape .fast).Covers P
  opens : σ.opens = []
  waiting : σ.waiting = false
  tidy : slow = false → σ.Tidy

variable {σ σ' : Sketch} {f : Frame} {L L' : Loans} {P P' : Shape} {js : List Jump} {slow : Bool}
  {b n n' : Nat}

theorem Clean.lent (h : σ.Clean) : σ.Lent σ.frame Loans.none :=
  ⟨h.toQuiet, h.loans, .refl _⟩

theorem Lent.sp (h : σ.Lent f L) : σ.frame.sp = f.sp := h.view.sp

theorem Lent.base (h : σ.Lent f L) : σ.frame.stackBase = f.stackBase := h.view.stackBase

theorem Armed.mono (h : σ.Armed f L P js) (hP : P.Covers P') : σ.Armed f L P' js :=
  ⟨h.frame, h.loans, h.fast.trans hP, h.slow, h.opens, h.pending⟩

theorem Armed.releasing (h : σ.Armed f L P []) (hw : σ.waiting = false) :
    σ.Releasing false f.stackBase f.sp L P :=
  have ho := h.opens.eq_nil
  ⟨by rw [h.frame], by rw [h.frame], h.loans, h.fast, ho, hw, fun _ => ⟨h.slow, ho, h.pending⟩⟩

theorem Releasing.reframe (h : σ.Releasing slow b n L P) (hr : σ.Reframes σ')
    (hsp : σ'.frame.sp = n') (hL : σ'.loans = L') : σ'.Releasing slow b n' L' P where
  base := hr.base.trans h.base
  sp := hsp
  loans := hL
  fast := hr.shape ▸ h.fast
  opens := hr.opens.trans h.opens
  waiting := hr.waiting.trans h.waiting
  tidy hs :=
    ⟨(congrFun hr.shape .slow).trans (h.tidy hs).slow, hr.opens.trans h.opens,
      hr.pending.trans (h.tidy hs).pending⟩

theorem Clean.releasing (h : σ.Clean) :
    σ.Releasing false σ.frame.stackBase σ.frame.sp Loans.none Shape.none :=
  ⟨rfl, rfl, h.loans, Shape.covers_none _, h.opens, h.waiting, fun _ => h.toTidy⟩

theorem Releasing.clean (h : σ.Releasing false b n Loans.none P) : σ.Clean :=
  ⟨⟨h.tidy rfl, h.waiting⟩, h.loans⟩

end Sketch

namespace CompileM

variable {α β : Type} {c : Context} {σ : Sketch} {f : Frame} {L : Loans} {s : Slot} {P : Shape}
  {js : List Jump} {slow : Bool} {b n : Nat}

/-! ### Borrowing -/

variable {x : FrameM α} {r : Reg} {g : Guard} {stub : Stub} {arg : Int64} {types : TypeSet}
  {changes : Nat}

/-- An operation that borrows registers. -/
theorem lent_delivers {M : α → Loans} {R : α → Frame → Prop} (h : σ.Lent f L)
    (hx : ∀ g, f.SameView g → g.Ready c.slots L → FrameM.Delivers c.slots x g L
      fun v g' L' => L' = M v ∧ g.SameView g' ∧ R v g') :
    Delivers c (liftM x) σ fun v σ' => σ'.Lent f (M v) ∧ R v σ'.frame := by
  refine (delivers_frame (delivers_lift h.waiting fun hf =>
    h.loans ▸ hx σ.frame h.view (h.loans ▸ hf))).mono ?_
  rintro v σ' ⟨hl, hL, hv, hR⟩
  exact ⟨⟨hl.quiet h.toQuiet, hL, h.view.trans hv⟩, hR⟩

theorem dataReg_delivers (h : σ.Lent f L) (hroom : L.count < Reg.count) (hs : s < f.sp)
    (hc : f.constant? s = none) (ht : f.knownType s ≠ .double) :
    Delivers c (liftM (FrameM.dataReg s)) σ fun r σ' => σ'.Lent f L ∧ σ'.frame.bound.reg r :=
  lent_delivers h fun _ hv hg => FrameM.dataReg_delivers hg hroom (hv.sp ▸ hs)
    ((hv.constant?_eq s).trans hc) (hv.knownType s ▸ ht)

theorem tagReg_delivers (h : σ.Lent f L) (hroom : L.count < Reg.count) (hs : s < f.sp)
    (ht : f.knownType s = .unknown) :
    Delivers c (liftM (FrameM.tagReg s)) σ fun r σ' => σ'.Lent f L ∧ σ'.frame.bound.reg r :=
  lent_delivers h fun _ hv hg => FrameM.tagReg_delivers hg hroom (hv.sp ▸ hs)
    (hv.knownType s ▸ ht)

theorem doubleReg_delivers (h : σ.Lent f L) (hroom : L.fcount < FReg.allocatable) (hs : s < f.sp)
    (hc : f.constant? s = none) (ht : f.knownType s = .double) :
    Delivers c (liftM (FrameM.doubleReg s)) σ fun r σ' => σ'.Lent f L ∧ σ'.frame.bound.freg r :=
  lent_delivers h fun _ hv hg => FrameM.doubleReg_delivers hg hroom (hv.sp ▸ hs)
    ((hv.constant?_eq s).trans hc) (hv.knownType s ▸ ht)

theorem alloc_delivers (h : σ.Lent f L) (hroom : L.count < Reg.count) :
    Delivers c (liftM FrameM.alloc) σ fun r σ' => σ'.Lent f (L.addTemp r) ∧ r.Valid ∧ r ∉ L.temps :=
  lent_delivers h fun _ _ hg => (FrameM.alloc_delivers hg hroom).mono fun _ _ _ _ h' =>
    ⟨h'.1, h'.2.1, h'.2.2.1⟩

/-- A double register that was read for a slot stays with it while another one is allocated. -/
theorem alloc_keeps_doubles (h : σ.Lent f L) (hroom : L.count < Reg.count) :
    Delivers c (liftM FrameM.alloc) σ fun r σ' =>
    (σ'.Lent f (L.addTemp r) ∧ r.Valid ∧ r ∉ L.temps) ∧
      ∀ q, σ.frame.bound.freg q → σ'.frame.bound.freg q := by
  refine (delivers_frame (delivers_lift h.waiting fun hf =>
    FrameM.alloc_delivers hf (h.loans ▸ hroom))).mono ?_
  rintro r σ' ⟨hl, hL, hv, hr, hfregs⟩
  rw [h.loans] at hL hr
  refine ⟨⟨⟨hl.quiet h.toQuiet, hL, h.view.trans hv⟩, hr⟩, fun q hq => ?_⟩
  simpa [Frame.bound, RegisterFile.fbinding, hfregs] using hq

theorem allocDouble_delivers (h : σ.Lent f L) (hroom : L.fcount < FReg.allocatable) :
    Delivers c (liftM FrameM.allocDouble) σ fun r σ' =>
      σ'.Lent f (L.addFTemp r) ∧ r.Valid ∧ r ∉ L.ftemps :=
  lent_delivers h fun _ _ hg => FrameM.allocDouble_delivers hg hroom

theorem loadTemp_delivers (w : Int64) (h : σ.Lent f L) (hroom : L.count < Reg.count) :
    Delivers c (liftM (FrameM.loadTemp (.imm w))) σ fun r σ' =>
      σ'.Lent f (L.addFull r) ∧ r.Valid ∧ r ∉ L.temps :=
  lent_delivers h fun _ _ hg => FrameM.loadTemp_delivers hg hroom w

theorem copyData_delivers (h : σ.Lent f L) (hroom : L.count + 1 < Reg.count) (hs : s < f.sp)
    (ht : f.knownType s ≠ .double) :
    Delivers c (liftM (FrameM.copyData s)) σ fun r σ' =>
      σ'.Lent f (L.addFull r) ∧ r.Valid ∧ r ∉ L.temps :=
  lent_delivers h fun _ hv hg => FrameM.copyData_delivers hg hroom (hv.sp ▸ hs)
    (hv.knownType s ▸ ht)

theorem copyNumber_delivers (h : σ.Lent f L) (hroom : L.count < Reg.count)
    (hfroom : L.fcount + 1 < FReg.allocatable) (hs : s < f.sp)
    (ht : f.knownType s = .unknown ∨ (f.knownType s).isNumber) :
    Delivers c (liftM (FrameM.copyNumber s)) σ fun r σ' =>
      σ'.Lent f (L.addFFull r) ∧ r.Valid ∧ r ∉ L.ftemps :=
  lent_delivers h fun _ hv hg => FrameM.copyNumber_delivers hg hroom hfroom (hv.sp ▸ hs)
    (hv.knownType s ▸ ht)

theorem source_delivers (h : σ.Lent f L) (hroom : L.count + 1 < Reg.count)
    (hfroom : L.fcount < FReg.allocatable) (hs : s < f.sp) :
    Delivers c (liftM (FrameM.source s)) σ fun src σ' => σ'.Lent f (L.pinSource src) :=
  (lent_delivers (M := fun src => L.pinSource src) (R := fun _ _ => True) h fun _ hv hg =>
    (FrameM.source_delivers hg hroom hfroom (hv.sp ▸ hs)).mono fun _ _ _ _ h' =>
      ⟨h'.1, h'.2, trivial⟩).mono fun _ _ h' => h'.1

theorem syncEntry_delivers (h : σ.Lent f L) (hs : s < f.sp) :
    Delivers c (liftM (FrameM.syncEntry s)) σ fun _ σ' => σ'.Lent f L :=
  (lent_delivers (M := fun _ => L) (R := fun _ _ => True) h fun _ hv hg =>
    (FrameM.syncEntry_delivers hg (hv.sp ▸ hs)).mono fun _ _ _ _ h' =>
      ⟨h'.1, h'.2, trivial⟩).mono fun _ _ h' => h'.1

theorem pin_delivers (h : σ.Lent f L) (hr : σ.frame.bound.reg r) :
    Delivers c (liftM (pin r)) σ fun pins σ' => σ'.Lent f (L.addPins pins) ∧
      pins.length ≤ 1 ∧ r ∈ (L.addPins pins).pins := by
  refine (delivers_frame (delivers_lift h.waiting fun hf =>
    FrameM.pin_delivers hf hr)).mono ?_
  rintro pins σ' ⟨hl, hL, hpins, hmem, hv⟩
  rw [h.loans] at hL
  refine ⟨⟨hl.quiet h.toQuiet, hL, h.view.trans hv⟩, ?_, hL ▸ hmem⟩
  rcases hpins with rfl | rfl <;> simp

/-- An operand is a constant or in a register. -/
theorem readOperand_delivers {w : Option Int64} (h : σ.Lent f L) (hroom : L.count < Reg.count)
    (hs : s < f.sp) (hc : w = none → f.constant? s = none ∧ f.knownType s ≠ .double) :
    Delivers c (liftM (readOperand s w)) σ fun x σ' => σ'.Lent f (L.addPins x.2) ∧
      x.2.length ≤ 1 ∧ x.1.ReadsLoan (L.addPins x.2) := by
  cases w with
  | some w => exact delivers_pure ⟨h, Nat.zero_le _, fun _ _ => trivial⟩
  | none =>
    obtain ⟨hconst, htype⟩ := hc rfl
    unfold readOperand
    rw [liftM_frame_bind]
    refine (dataReg_delivers h hroom hs hconst htype).bind ?_
    rintro r σ₁ ⟨h₁, hr⟩
    rw [liftM_frame_bind]
    refine (pin_delivers h₁ hr).bind ?_
    rintro pins σ₂ ⟨h₂, hpins, hmem⟩
    exact delivers_pure ⟨h₂, hpins, fun _ g => Loans.shape_pin g hmem⟩

/-! ### Code for one frame -/

/-- What has been borrowed has contents. -/
theorem delivers_armed {x : CompileM α} {Q : α → Sketch → Prop} (h : σ.Lent f L)
    (hx : σ.frame.Ready c.slots L → σ.Armed σ.frame L (L.shape σ.frame) [] → Delivers c x σ Q) :
    Delivers c x σ Q :=
  delivers_ready fun hready hfast => hx (h.loans ▸ hready)
    ⟨rfl, h.loans, h.loans ▸ hfast, h.slow, by rw [h.opens], h.pending⟩

/-- An instruction of the fast stream. -/
theorem emit_delivers {i : Inst} (h : σ.Armed f L P js) (ht : i.target? = none)
    (hc : i.isCall = false) (hr : i.Reads (f.limit c.slots) P) :
    Delivers c (liftM (AsmM.emit .fast i)) σ fun _ σ' => σ'.Armed f L (i.after P) js ∧
      σ'.waiting = σ.waiting := by
  refine delivers_asm (AsmM.emit_delivers ht hc ?_ ⟨⟨h.frame, h.loans, ?_, ?_, h.opens, h.pending⟩,
    rfl⟩)
  · rw [h.frame]
    exact hr.mono (Nat.le_refl _) h.fast
  · simpa [Sketch.emit, Sketch.append] using Inst.after_covers h.fast
  · simpa [Sketch.emit, Sketch.append] using h.slow

/-- The branch that has just been emitted waits for the slow path. -/
theorem linkExit_delivers (h : σ.Armed f L P js) (hbound : (σ.shape .fast).Covers σ.frame.bound) :
    Delivers c (liftM (AsmM.linkExit (σ.label .fast))) (σ.branch .fast g) fun _ σ' =>
      σ'.Armed f L (g.after P) js ∧ σ'.waiting ∧ (σ.label .fast, σ.shape .fast) ∈ σ'.sites := by
  refine delivers_asm (AsmM.linkExit_delivers (S := σ.shape .fast) List.mem_cons_self
    (by simp [Sketch.branch]) hbound ⟨⟨h.frame, h.loans, ?_, ?_, ?_, h.pending⟩, rfl,
      List.mem_cons_self⟩)
  · simpa [Sketch.await, Sketch.branch, Sketch.append] using Guard.after_covers h.fast
  · simpa [Sketch.await, Sketch.branch, Sketch.append] using h.slow
  · simpa [Sketch.await, Sketch.branch, Sketch.append] using h.opens

/-- A branch that waits for the slow path. -/
theorem exit_delivers (h : σ.Armed f L P js) (hr : g.Reads (f.limit c.slots) P) :
    Delivers c (liftM (branch .fast g) >>= fun j => liftM (linkExit j)) σ
      fun _ σ' => σ'.Armed f L (g.after P) js ∧ σ'.waiting ∧
        (σ.label .fast, σ.shape .fast) ∈ σ'.sites := by
  refine delivers_ready fun _ hfast => ?_
  refine delivers_bind (delivers_asm (branch_delivers ?_ ?_))
  · rw [h.frame]
    exact hr.mono (Nat.le_refl _) h.fast
  · exact linkExit_delivers h (hfast.trans (σ.loans.shape_covers_bound _))

/-- Either the assumption of a guard holds or it is tested. -/
def Tests (σ : Sketch) (P : Shape) (g : Guarded) (σ' : Sketch) : Prop :=
  (g = .proven ∧ σ' = σ) ∨
    (g = .exit (σ.label .fast) ∧ ∃ b : Guard, b.after P = P ∧ σ' = σ.branch .fast b)

/-- A guard that waits for the slow path. -/
theorem linkGuard_delivers {x : AsmM Guarded} (h : σ.Armed f L P js)
    (hx : (σ.shape .fast).Covers σ.frame.bound →
      AsmM.Delivers c.Jumps c.slots x σ fun g σ' => Tests σ P g σ') :
    Delivers c (liftM x >>= linkGuard) σ fun _ σ' => σ'.Armed f L P js ∧
      (σ' = σ ∨ (σ.label .fast, σ.shape .fast) ∈ σ'.sites) := by
  refine delivers_ready fun _ hfast => ?_
  have hbound := hfast.trans (σ.loans.shape_covers_bound _)
  refine (delivers_asm (hx hbound)).bind ?_
  rintro g σ' (⟨rfl, rfl⟩ | ⟨rfl, b, hb, rfl⟩)
  · exact delivers_pure ⟨h, .inl rfl⟩
  · exact (linkExit_delivers h hbound).mono fun _ _ h' => ⟨hb ▸ h'.1, .inr h'.2.2⟩

/-- A test of the tag of a slot of unknown type. -/
theorem testTag_delivers {J : Nat → Prop} {D : Nat} (cond : Cond) (t : Operand)
    (ht : t.Reads (σ.frame.limit D) (σ.shape .fast))
    (hbound : (σ.shape .fast).Covers σ.frame.bound) (hs : s < σ.frame.sp)
    (hk : σ.frame.knownType s = .unknown) :
    AsmM.Delivers J D (do
      return .exit (← AsmM.branch .fast (.compare cond (← tagOperand s) t))) σ
      fun g σ' => Tests σ P g σ' := by
  refine AsmM.delivers_bind (AsmM.tagOperand_delivers hk hs fun o ho => ?_)
  refine AsmM.delivers_bind (AsmM.branch_delivers ⟨ho.mono (Nat.le_refl _) hbound, ht⟩ ?_)
  exact AsmM.delivers_pure (.inr ⟨rfl, _, rfl, rfl⟩)

/-- A guard on the tag of a slot whose type does not refute it, with the position of its branch
if it has one. -/
theorem guardTag_site {t : Tag} (h : σ.Armed f L P js) (hs : s < f.sp)
    (ht : f.knownType s = .unknown ∨ (f.knownType s).tag? = some t) :
    Delivers c (liftM (guardTag s t) >>= linkGuard) σ fun _ σ' => σ'.Armed f L P js ∧
      (σ' = σ ∨ (σ.label .fast, σ.shape .fast) ∈ σ'.sites) := by
  obtain rfl := h.frame
  refine linkGuard_delivers h fun hbound => AsmM.delivers_bind (AsmM.frame_delivers ?_)
  split
  · next hk => exact testTag_delivers .notEqual _ trivial hbound hs hk
  · next hk => simp [hk, KnownType.tag?] at ht
  · next hunknown _ =>
    rw [if_pos (ht.resolve_left hunknown)]
    exact AsmM.delivers_pure (.inl ⟨rfl, rfl⟩)

theorem guardTag_delivers {t : Tag} (h : σ.Armed f L P js) (hs : s < f.sp)
    (ht : f.knownType s = .unknown ∨ (f.knownType s).tag? = some t) :
    Delivers c (liftM (guardTag s t) >>= linkGuard) σ fun _ σ' => σ'.Armed f L P js :=
  (guardTag_site h hs ht).mono fun _ _ h' => h'.1

/-- A guard that a slot is a number, where its type does not refute that. -/
theorem guardNumber_delivers (h : σ.Armed f L P js) (hs : s < f.sp)
    (ht : f.knownType s = .unknown ∨ (f.knownType s).isNumber) :
    Delivers c (liftM (guardNumber s) >>= linkGuard) σ fun _ σ' => σ'.Armed f L P js := by
  obtain rfl := h.frame
  refine (linkGuard_delivers h fun hbound =>
    AsmM.delivers_bind (AsmM.frame_delivers ?_)).mono fun _ _ h' => h'.1
  split
  · next hk => exact testTag_delivers (.unsigned .gt) _ trivial hbound hs hk
  · next hunknown =>
    rw [if_pos (ht.resolve_left hunknown)]
    exact AsmM.delivers_pure (.inl ⟨rfl, rfl⟩)

/-! ### Giving back -/

theorem slowCall_delivers (h : σ.Armed f L P []) :
    Delivers c (liftM (AsmM.slowCall stub arg)) σ fun _ σ' =>
      σ'.Releasing true f.stackBase f.sp L P := by
  refine delivers_asm (AsmM.slowCall_delivers (h.slow ▸ Shape.all_covers _) fun n => ?_)
  refine ⟨congrArg _ h.frame, congrArg _ h.frame, h.loans, ?_, h.opens.eq_nil, rfl,
    nofun⟩
  simpa [Sketch.call, Sketch.append, Sketch.leave] using h.fast

/-- Going to the slow path, if there is one. -/
theorem slowCall?_delivers {k : CompileM β} {Q : β → Sketch → Prop} (h : σ.Armed f L P [])
    (hk : ∀ σ', σ'.Releasing σ.waiting f.stackBase f.sp L P →
      Delivers c k σ' Q) :
    Delivers c (if σ.waiting = true then (do slowCall stub arg; k) else k) σ Q := by
  cases hw : σ.waiting with
  | true => exact (slowCall_delivers h).bind fun _ σ' h' => hk σ' (hw ▸ h')
  | false => exact hk σ (hw ▸ h.releasing hw)

/-- An operation that gives registers back. -/
theorem release_delivers {L' : Loans} {n' : Nat} (h : σ.Releasing slow b n L P)
    (hx : Settles c.slots x σ.frame σ.loans (σ.shape .fast) fun _ f' M =>
      M = L' ∧ f'.sp = n') : Delivers c (liftM x) σ fun _ σ' => σ'.Releasing slow b n' L' P :=
  (delivers_settles h.waiting hx).mono fun _ _ h' => h.reframe h'.1 h'.2.2 h'.2.1

theorem free_delivers (h : σ.Releasing slow b n L P) (hr : r ∈ L.temps) :
    Delivers c (liftM (free r)) σ fun _ σ' => σ'.Releasing slow b n (L.dropTemp r) P :=
  release_delivers h ((free_settles (h.loans ▸ hr)).mono fun _ _ _ h' =>
    ⟨h.loans ▸ h'.1, h'.2.sp.trans h.sp⟩)

theorem freeDouble_delivers {r : FReg} (h : σ.Releasing slow b n L P) (hr : r ∈ L.ftemps) :
    Delivers c (liftM (freeDouble r)) σ fun _ σ' =>
      σ'.Releasing slow b n (L.dropFTemp r) P :=
  release_delivers h ((freeDouble_settles (h.loans ▸ hr)).mono fun _ _ _ h' =>
    ⟨h.loans ▸ h'.1, h'.2.sp.trans h.sp⟩)

theorem unpinAll_delivers (rs : List Reg) (h : σ.Releasing slow b n L P) :
    Delivers c (liftM (unpinAll rs)) σ fun _ σ' => σ'.Releasing slow b n (L.dropPins rs) P :=
  release_delivers h ((unpinAll_settles rs).mono fun _ _ _ h' =>
    ⟨h.loans ▸ h'.1, h'.2.sp.trans h.sp⟩)

theorem unpinSource_delivers (src : Source) (h : σ.Releasing slow b n L P) :
    Delivers c (liftM (unpinSource src)) σ fun _ σ' =>
      σ'.Releasing slow b n (L.unpinSource src) P :=
  release_delivers h ((unpinSource_settles src).mono fun _ _ _ h' =>
    ⟨h.loans ▸ h'.1, h'.2.sp.trans h.sp⟩)

section

variable (h : σ.Releasing slow b n L P)
include h

theorem popN_delivers {k : Nat} (hk : b + k ≤ n) :
    Delivers c (liftM (updateFrame (Frame.popN k))) σ fun _ σ' =>
      σ'.Releasing slow b (n - k) L P := by
  have hn : σ.frame.stackBase + k ≤ σ.frame.sp := by rw [h.base, h.sp]; exact hk
  refine (delivers_update h.waiting (popN_settles hn)).mono ?_
  rintro - σ' ⟨hr, hf, hL⟩
  exact h.reframe hr (by rw [hf, Frame.sp_popN, h.sp]) (hL.trans h.loans)

theorem pop_delivers (hn : b < n) :
    Delivers c (liftM (updateFrame Frame.pop)) σ fun _ σ' =>
      σ'.Releasing slow b (n - 1) L P :=
  popN_delivers (k := 1) h hn

theorem pushTyped_delivers {t : KnownType} (ht : t.tag?.isSome) (hr : r ∈ L.temps) (hP : P.reg r) :
    Delivers c (liftM (pushTyped t r)) σ fun _ σ' =>
      σ'.Releasing slow b (n + 1) (L.dropTemp r) P :=
  release_delivers h ((pushTyped_settles ht (h.loans ▸ hr) (h.fast.reg r hP)).mono
    fun _ _ _ h' => ⟨h.loans ▸ h'.2.1, h'.2.2.trans (congrArg (· + 1) h.sp)⟩)

theorem pushDouble_delivers {r : FReg} (hr : r ∈ L.ftemps) (hP : P.freg r) :
    Delivers c (liftM (pushDouble r)) σ fun _ σ' =>
      σ'.Releasing slow b (n + 1) (L.dropFTemp r) P :=
  release_delivers h ((pushDouble_settles (h.loans ▸ hr) (h.fast.freg r hP)).mono
    fun _ _ _ h' => ⟨h.loans ▸ h'.2.1, h'.2.2.trans (congrArg (· + 1) h.sp)⟩)

theorem pushRegs_delivers {rt rp : Reg} (hne : rt ≠ rp) (ht : rt ∈ L.temps) (hp : rp ∈ L.temps)
    (hPt : P.reg rt) (hPp : P.reg rp) :
    Delivers c (liftM (pushRegs rt rp types)) σ fun _ σ' =>
      σ'.Releasing slow b (n + 1) ((L.dropTemp rt).dropTemp rp) P :=
  release_delivers h ((pushRegs_settles hne (h.loans ▸ ht) (h.loans ▸ hp)
    (h.fast.reg _ hPt) (h.fast.reg _ hPp)).mono
    fun _ _ _ h' => ⟨h.loans ▸ h'.2.1, h'.2.2.trans (congrArg (· + 1) h.sp)⟩)

/-- An integer result is pushed, in the form in which it is. -/
theorem pushInt_delivers {res : IntResult} (hp : res.payload ∈ L.temps) (hP : P.reg res.payload)
    (hw : ∀ r, res.wide = some r → r ∈ L.ftemps ∧ P.freg r)
    (ht : ∀ r, res.tag = some r → r ≠ res.payload ∧ r ∈ L.temps ∧ P.reg r) :
    Delivers c (liftM (pushInt res types)) σ fun _ σ' =>
      σ'.Releasing slow b (n + 1) (res.release L) P := by
  obtain ⟨payload, wide, tag⟩ := res
  unfold pushInt IntResult.release
  cases wide with
  | some r =>
    obtain ⟨hr, hPr⟩ := hw r rfl
    dsimp only
    rw [liftM_frame_bind]
    refine (free_delivers h hp).bind fun _ σ₁ h₁ => ?_
    rw [liftM_frame_bind]
    exact (pushDouble_delivers h₁ hr hPr).bind fun _ _ h₂ => delivers_pure h₂
  | none =>
    cases tag with
    | some r =>
      obtain ⟨hne, hr, hPr⟩ := ht r rfl
      dsimp only
      rw [liftM_frame_bind]
      exact (pushRegs_delivers h hne hr hp hPr hP).bind fun _ _ h₁ => delivers_pure h₁
    | none =>
      dsimp only
      rw [liftM_frame_bind]
      exact (pushTyped_delivers h rfl hp hP).bind fun _ _ h₁ => delivers_pure h₁

theorem replaceByBoolean_delivers {k : Nat} (hk : b + k ≤ n) (hr : r ∈ L.temps) (hP : P.reg r) :
    Delivers c (liftM (replaceByBoolean k r)) σ fun _ σ' =>
      σ'.Releasing slow b (n - k + 1) (L.dropTemp r) P := by
  unfold replaceByBoolean
  rw [liftM_bind]
  refine (popN_delivers h hk).bind fun _ σ₁ h₁ => ?_
  rw [liftM_bind]
  exact (pushTyped_delivers h₁ rfl hr hP).bind fun _ _ h₂ => delivers_pure h₂

end

/-- The slow path comes back. -/
theorem rejoin_delivers (h : σ.Releasing slow b n Loans.none P) :
    Delivers c (liftM (AsmM.rejoin changes)) σ fun _ σ' => σ'.Clean ∧ σ'.frame.sp = n :=
  (delivers_asm (AsmM.rejoin_delivers h.waiting h.loans h.opens)).mono fun _ _ h' =>
    ⟨h'.1, h'.2 ▸ h.sp⟩

/-- The slow path comes back, if there is one. -/
theorem rejoin?_delivers {v : β} (h : σ.Releasing slow b n Loans.none P) :
    Delivers c (if slow = true then (do rejoin changes; return v) else return v) σ
      fun w σ' => w = v ∧ σ'.Clean ∧ σ'.frame.sp = n := by
  cases slow with
  | true => exact (rejoin_delivers h).bind fun _ _ h' => delivers_pure ⟨rfl, h'⟩
  | false => exact delivers_pure ⟨rfl, h.clean, h.sp⟩

/-! ### Assignments -/

/-- An operation that moves values between slots. -/
theorem assign_delivers (h : σ.Releasing slow b n Loans.none P) {n' : Nat}
    (hx : σ.frame.Ready c.slots Loans.none →
      FrameM.Delivers c.slots x σ.frame Loans.none fun _ f' L' => L' = Loans.none ∧ f'.sp = n') :
    Delivers c (liftM x) σ fun _ σ' => σ'.Releasing slow b n' Loans.none Shape.none := by
  refine (delivers_frame (delivers_lift h.waiting fun hf =>
    h.loans ▸ hx (h.loans ▸ hf))).precedes.mono ?_
  rintro v σ' ⟨⟨hl, hL, hsp⟩, hp⟩
  exact ⟨hp.stackBase.trans h.base, hsp, hL.trans h.loans, Shape.covers_none _,
    hl.opens.trans h.opens,
    hl.waiting.trans h.waiting, fun hs => ⟨hl.slow.trans (h.tidy hs).slow,
      hl.opens.trans h.opens, hl.pending.trans (h.tidy hs).pending⟩⟩

theorem storeVar_delivers {v : Bytecode.Var} {popped : Bool} (hσ : σ.Clean)
    (hv : σ.frame.varSlot v < σ.frame.stackBase) (hdepth : σ.frame.stackBase < σ.frame.sp) :
    Delivers c (liftM (FrameM.storeVar v popped)) σ fun _ σ' => σ'.Clean ∧
      σ'.frame.sp = if popped then σ.frame.sp - 1 else σ.frame.sp :=
  (assign_delivers hσ.releasing fun hf => FrameM.storeVar_delivers hf hv hdepth popped).mono
    fun _ _ h => ⟨h.clean, h.sp⟩

end CompileM

end FastPath
