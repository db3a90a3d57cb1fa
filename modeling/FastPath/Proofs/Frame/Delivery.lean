import FastPath.Proofs.Frame.Sample
import FastPath.Proofs.Frame.StoreProgress
import FastPath.Proofs.Machine.Shape

/-!
# What loading operations deliver

An operation that loads or moves values is followed together with the registers that are on
loan. `FrameM.Delivers` says that it succeeds, that the code it emits reads only registers
that have contents, and which registers have contents afterwards: those of slots, those that
are pinned, and the temporaries that have been written.

None of this depends on values. So it is proved on one machine for each frame, in which
exactly the registers that should have contents do.

## Main results

* `Frame.Ready.tracks_model`: a frame describes its model.
* `FrameM.Delivers` and one lemma for each operation that loads.
-/

namespace FastPath

open Frame RegisterFile

/-! ### Registers that have contents -/

/-- The registers that hold part of a slot. -/
def Frame.bound (f : Frame) : Shape :=
  ⟨fun r => (f.regs.binding r).slot?.isSome, fun r => (f.regs.fbinding r).slot?.isSome⟩

namespace Loans

/-- The registers that have contents: those of slots, those that are pinned, and temporaries
that have been written. -/
def shape (L : Loans) (f : Frame) : Shape :=
  ⟨fun r => f.bound.reg r ∨ r ∈ L.pins ∨ r ∈ L.full,
    fun r => f.bound.freg r ∨ r ∈ L.fpins ∨ r ∈ L.ffull⟩

/-- One more temporary, which has been written. -/
def addFull (L : Loans) (r : Reg) : Loans :=
  { L with temps := r :: L.temps, full := r :: L.full }

/-- One more double temporary, which has been written. -/
def addFFull (L : Loans) (r : FReg) : Loans :=
  { L with ftemps := r :: L.ftemps, ffull := r :: L.ffull }

variable (L : Loans)

@[simp] theorem count_addFull (r : Reg) : (L.addFull r).count = L.count + 1 := count_addTemp L r

@[simp] theorem fcount_addFull (r : Reg) : (L.addFull r).fcount = L.fcount := rfl

@[simp] theorem count_addFFull (r : FReg) : (L.addFFull r).count = L.count := rfl

@[simp] theorem fcount_addFFull (r : FReg) : (L.addFFull r).fcount = L.fcount + 1 :=
  fcount_addFTemp L r

variable (f : Frame)

theorem shape_covers_bound : (L.shape f).Covers f.bound := ⟨fun _ => .inl, fun _ => .inl⟩

variable {L}

theorem shape_mono {L' : Loans} (hpins : L.pins ⊆ L'.pins) (hfull : L.full ⊆ L'.full)
    (hfpins : L.fpins ⊆ L'.fpins) (hffull : L.ffull ⊆ L'.ffull) :
    (L'.shape f).Covers (L.shape f) :=
  ⟨fun _ h => h.imp id (Or.imp (hpins ·) (hfull ·)), fun _ h =>
    h.imp id (Or.imp (hfpins ·) (hffull ·))⟩

theorem shape_pin {r : Reg} (h : r ∈ L.pins) : (L.shape f).reg r := Or.inr (.inl h)

theorem shape_full {r : Reg} (h : r ∈ L.full) : (L.shape f).reg r := Or.inr (.inr h)

theorem shape_fpin {r : FReg} (h : r ∈ L.fpins) : (L.shape f).freg r := Or.inr (.inl h)

theorem shape_ffull {r : FReg} (h : r ∈ L.ffull) : (L.shape f).freg r := Or.inr (.inr h)

end Loans

/-- Pinned registers and the temporaries marked as written have contents. -/
structure Loans.Filled (L : Loans) (m : Machine) : Prop where
  temp : ∀ r ∈ L.full, r ∈ L.temps
  pin : ∀ r ∈ L.pins, (m.reg r).isSome
  full : ∀ r ∈ L.full, (m.reg r).isSome
  ftemp : ∀ r ∈ L.ffull, r ∈ L.ftemps
  fpin : ∀ r ∈ L.fpins, (m.freg r).isSome
  ffull : ∀ r ∈ L.ffull, (m.freg r).isSome

theorem Loans.filled_none (m : Machine) : Loans.none.Filled m := by
  constructor <;> exact fun _ h => nomatch h

namespace Loans.Filled

variable {L : Loans} {m : Machine}

theorem addTemp (h : L.Filled m) (r : Reg) : (L.addTemp r).Filled m :=
  ⟨fun q hq => .tail _ (h.temp q hq), h.pin, h.full, h.ftemp, h.fpin, h.ffull⟩

theorem addFTemp (h : L.Filled m) (r : FReg) : (L.addFTemp r).Filled m :=
  ⟨h.temp, h.pin, h.full, fun q hq => .tail _ (h.ftemp q hq), h.fpin, h.ffull⟩

theorem addFull (h : L.Filled m) {r : Reg} (hr : (m.reg r).isSome) : (L.addFull r).Filled m := by
  obtain ⟨h₁, h₂, h₃, h₄, h₅, h₆⟩ := h
  constructor <;> grind [Loans.addFull]

theorem addFFull (h : L.Filled m) {r : FReg} (hr : (m.freg r).isSome) :
    (L.addFFull r).Filled m := by
  obtain ⟨h₁, h₂, h₃, h₄, h₅, h₆⟩ := h
  constructor <;> grind [Loans.addFFull]

theorem addPins (h : L.Filled m) {rs : List Reg} (hr : ∀ r ∈ rs, (m.reg r).isSome) :
    (L.addPins rs).Filled m := by
  obtain ⟨h₁, h₂, h₃, h₄, h₅, h₆⟩ := h
  constructor <;> grind [Loans.addPins]

theorem addFPins (h : L.Filled m) {rs : List FReg} (hr : ∀ r ∈ rs, (m.freg r).isSome) :
    (L.addFPins rs).Filled m := by
  obtain ⟨h₁, h₂, h₃, h₄, h₅, h₆⟩ := h
  constructor <;> grind [Loans.addFPins]

/-- Held registers keep their contents. -/
theorem keeps {f f' : Frame} {m' : Machine} (h : L.Filled m) (hL : f.regs.Lends L)
    (hk : f.Keeps m f' m') : L.Filled m' where
  __ := h
  pin r hr := by
    rw [hk.contents r (.inr ((hL.pinned r).2 hr))]
    exact h.pin r hr
  full r hr := by
    rw [hk.contents r (.inl ((hL.temp r).2 (h.temp r hr)))]
    exact h.full r hr
  fpin r hr := by
    rw [hk.fcontents r (.inr ((hL.fpinned r).2 hr))]
    exact h.fpin r hr
  ffull r hr := by
    rw [hk.fcontents r (.inl ((hL.ftemp r).2 (h.ftemp r hr)))]
    exact h.ffull r hr

end Loans.Filled

/-! ### Ready frames -/

/-- The slots that memory must have for what has been compiled so far; `D` slots are needed
in any case. -/
def Frame.limit (f : Frame) (D : Nat) : Nat := max f.maxSp D

variable {f f' : Frame}

theorem Frame.Continues.limit (h : f.Continues f') (D : Nat) : f.limit D ≤ f'.limit D := by
  have := h.maxSp
  simp only [Frame.limit]
  omega

theorem Frame.SameView.limit (h : f.SameView f') (D : Nat) : f'.limit D = f.limit D := by
  rw [Frame.limit, h.maxSp, Frame.limit]

/-- A frame that an emitter may go on from, with the given registers on loan. -/
structure Frame.Ready (f : Frame) (D : Nat) (L : Loans) : Prop where
  sound : f.Sound none
  neat : f.Neat none
  base : f.stackBase ≤ f.sp
  room : f.sp ≤ f.limit D
  lends : f.regs.Lends L
  temp : ∀ r ∈ L.full, r ∈ L.temps
  ftemp : ∀ r ∈ L.ffull, r ∈ L.ftemps

/-- The machine with contents only in the registers of a shape. -/
noncomputable def Machine.within (m : Machine) (P : Shape) : Machine :=
  open Classical in
  { m with
    regs := m.regs.mapIdx fun i v => if P.reg ⟨i⟩ then v else none
    fregs := m.fregs.mapIdx fun i v => if P.freg ⟨i⟩ then v else none }

namespace Machine

variable {m : Machine} {P : Shape}

theorem reg_within {r : Reg} (hr : P.reg r) : (m.within P).reg r = m.reg r := by
  unfold within reg
  cases hv : m.regs[r.index]? <;> simp [hv, hr]

theorem freg_within {r : FReg} (hr : P.freg r) : (m.within P).freg r = m.freg r := by
  unfold within freg
  cases hv : m.fregs[r.index]? <;> simp [hv, hr]

theorem covers_shape_within : P.Covers (m.within P).shape := by
  refine ⟨fun r hr => ?_, fun r hr => ?_⟩
  · by_contra hP
    unfold shape within reg at hr
    cases hv : m.regs[r.index]? <;> simp [hv, hP] at hr
  · by_contra hP
    unfold shape within freg at hr
    cases hv : m.fregs[r.index]? <;> simp [hv, hP] at hr

end Machine

namespace Frame

variable {f : Frame} {m : Machine} {env : Slot → Value} {L : Loans} {N D : Nat}

/-- Only the registers of slots matter to what a frame describes. -/
theorem Tracks.within (h : f.Tracks none m env) {P : Shape} (hP : P.Covers f.bound) :
    f.Tracks none (m.within P) env := by
  refine ⟨h.sound, h.room, fun s hl => ?_⟩
  refine (h.holds s hl).congr rfl rfl (fun _ _ => ⟨rfl, rfl⟩) rfl (fun r hr => ?_) fun r hr => ?_
  · refine Machine.reg_within (hP.reg r ?_)
    change (f.regs.binding r).slot?.isSome
    rcases hr with hr | hr
    · rw [(h.sound.data_iff s r).2 ⟨hl, hr⟩]
      rfl
    · rw [(h.sound.tag_iff s r).2 ⟨hl, hr⟩]
      rfl
  · refine Machine.freg_within (hP.freg r ?_)
    change (f.regs.fbinding r).slot?.isSome
    rw [(h.sound.fdata_iff s r).2 ⟨hl, hr⟩]
    rfl

/-- The registers of slots have contents. -/
theorem Tracks.covers_bound (h : f.Tracks none m env) : m.shape.Covers f.bound := by
  refine ⟨fun r hr => ?_, fun r hr => ?_⟩
  · change (m.reg r).isSome
    change (f.regs.binding r).slot?.isSome at hr
    cases hb : f.regs.binding r with
    | free | temp => simp [hb, Binding.slot?] at hr
    | data s =>
      obtain ⟨hl, hdata, hown⟩ := h.sound.own_of_data hb
      obtain ⟨c, u, hw, -⟩ := h.words hl hown (by simp [hdata])
      rw [hw.payload_reg hdata]
      rfl
    | tag s =>
      obtain ⟨hl, htag, hown⟩ := h.sound.own_of_tag hb
      have htype := h.sound.tag_type s r hl htag
      obtain ⟨c, u, hw, -⟩ := h.words hl hown (h.sound.ne_freg hl (by simp [htype]))
      rw [hw.tag_reg (by rw [htype]; rfl) htag]
      rfl
  · change (m.freg r).isSome
    change (f.regs.fbinding r).slot?.isSome at hr
    cases hb : f.regs.fbinding r with
    | free | temp => simp [hb, Binding.slot?] at hr
    | tag s => exact absurd hb (h.sound.ftag s r)
    | data s =>
      obtain ⟨hl, hdata, hown⟩ := h.sound.own_of_fdata hb
      obtain ⟨d, hd, -⟩ := (Entry.owns_freg hdata).1 ((holds_own hown).1 (h.holds s hl))
      rw [hd]
      rfl

/-- A machine that the frame describes, in which exactly the registers that should have
contents do. -/
noncomputable def model (f : Frame) (L : Loans) (N : Nat) : Machine :=
  (f.sample .int32 N).within (L.shape f)

theorem size_model : (f.model L N).slots.size = N := size_sample

theorem covers_shape_model : (L.shape f).Covers (f.model L N).shape :=
  Machine.covers_shape_within

theorem Ready.tracks_model (h : f.Ready D L) (hN : f.sp ≤ N) :
    f.Tracks none (f.model L N) (f.sampleValue .int32) :=
  (h.sound.tracks_sample hN).within (L.shape_covers_bound f)

end Frame

namespace RegisterFile

variable {g : RegisterFile}

theorem lt_of_isPinned {r : Reg} (h : g.isPinned r) : r.index < Reg.count := by
  by_contra hlt
  simp [isPinned, Bank.isPinned, Nat.le_of_not_lt hlt] at h

theorem lt_of_isFPinned {r : FReg} (h : g.isFPinned r) : r.index < FReg.allocatable := by
  by_contra hlt
  simp [isFPinned, Bank.isPinned, Nat.le_of_not_lt hlt] at h

end RegisterFile

namespace Frame

variable {f : Frame} {L : Loans} {N D : Nat}

/-- The model has what should have contents. -/
theorem Ready.filled_model (h : f.Ready D L) : L.Filled (f.model L N) where
  __ := h
  pin r hr := by
    have hlt := lt_of_isPinned ((h.lends.pinned r).2 hr)
    rw [model, Machine.reg_within (Loans.shape_pin f hr), reg_sample hlt]
    rfl
  full r hr := by
    have hb := (h.lends.temp r).2 (h.temp r hr)
    rw [model, Machine.reg_within (Loans.shape_full f hr),
      reg_sample (lt_of_binding hb rfl)]
    rfl
  fpin r hr := by
    have hlt := lt_of_isFPinned ((h.lends.fpinned r).2 hr)
    rw [model, Machine.freg_within (Loans.shape_fpin f hr),
      freg_sample (Nat.lt_trans hlt (by decide))]
    rfl
  ffull r hr := by
    have hb := (h.lends.ftemp r).2 (h.ftemp r hr)
    have hlt := lt_of_fbinding hb rfl
    rw [model, Machine.freg_within (Loans.shape_ffull f hr),
      freg_sample (Nat.lt_trans hlt (by decide))]
    rfl

end Frame

/-! ### Delivery -/

namespace FrameM

variable {α β : Type} {f : Frame} {L : Loans} {D : Nat}

/-- The operation succeeds, the code that it emits reads only registers that have contents,
and the emitter may go on from the new frame with the new loans. -/
def Delivers (D : Nat) (x : FrameM α) (f : Frame) (L : Loans)
    (Q : α → Frame → Loans → Prop) : Prop :=
  ∀ code, ∃ a s' is L', x ⟨f, code⟩ = .ok a s' ∧ s'.code.toList = code.toList ++ is ∧
    Block (s'.frame.limit D) is (L.shape f) (L'.shape s'.frame) ∧ s'.frame.Ready D L' ∧
    f.Continues s'.frame ∧ Q a s'.frame L'

variable {x : FrameM α} {Q : α → Frame → Loans → Prop} {R : α → Frame → Prop}
  {E : α → Frame → Machine → Prop}

theorem Delivers.mono {Q' : α → Frame → Loans → Prop} (h : Delivers D x f L Q)
    (hQ : ∀ a f' L', f'.Ready D L' → Q a f' L' → Q' a f' L') : Delivers D x f L Q' := by
  intro code
  obtain ⟨a, s', is, L', hx, hcode, hblock, hready, hcont, hq⟩ := h code
  exact ⟨a, s', is, L', hx, hcode, hblock, hready, hcont, hQ _ _ _ hready hq⟩

/-- What an operation delivers can be read off from what it does on the model. -/
theorem delivers_of_model {N : Nat} (hs : Succeeds x f R) (he : Ensures x f (f.model L N) E)
    (h : ∀ a f' m', R a f' → E a f' m' → ∃ L', (∃ env, f'.Tracks none m' env) ∧
      f'.Neat none ∧ f'.regs.Lends L' ∧ L'.Filled m' ∧ f'.stackBase ≤ f'.sp ∧
      f'.sp ≤ f'.limit D ∧ N ≤ f'.limit D ∧ f.Continues f' ∧ Q a f' L') : Delivers D x f L Q := by
  intro code
  obtain ⟨a, s', hx, hr⟩ := hs code
  obtain ⟨is, m', hcode, hruns, hq⟩ := he code a s' hx
  obtain ⟨L', ⟨env, ht⟩, hn, hL, hfill, hbase, hroom, hN, hcont, hQ⟩ := h a s'.frame m' hr hq
  refine ⟨a, s', is, L', hx, hcode, ?_,
    ⟨ht.sound, hn, hbase, hroom, hL, hfill.temp, hfill.ftemp⟩, hcont, hQ⟩
  obtain ⟨hblock, -⟩ := hruns.block
  rw [size_model] at hblock
  refine hblock.mono hN covers_shape_model ⟨fun r hr => ?_, fun r hr => ?_⟩
  · rcases hr with hr | hr | hr
    · exact ht.covers_bound.reg r hr
    · exact hfill.pin r hr
    · exact hfill.full r hr
  · rcases hr with hr | hr | hr
    · exact ht.covers_bound.freg r hr
    · exact hfill.fpin r hr
    · exact hfill.ffull r hr

/-- The same for an operation that only moves values around. -/
theorem delivers_loads (hf : f.Ready D L) (hs : Succeeds x f R)
    (he : Ensures x f (f.model L (f.limit D)) E) (h : ∀ a f' m', R a f' → E a f' m' →
      f.Loads none (f.model L (f.limit D)) (f.sampleValue .int32) f' m' ∧ f'.Neat none ∧
      ∃ L', f'.regs.Lends L' ∧ (L.Filled m' → L'.Filled m') ∧ Q a f' L') : Delivers D x f L Q := by
  refine delivers_of_model hs he fun a f' m' hr hq => ?_
  obtain ⟨hloads, hn, L', hL, hfill, hQ⟩ := h a f' m' hr hq
  have hv := hloads.view
  refine ⟨L', ⟨_, hloads.tracks⟩, hn, hL, hfill (hf.filled_model.keeps hf.lends hloads.keeps),
    ?_, ?_, Nat.le_of_eq (hv.limit D).symm, hv.sameExtent.continues, hQ⟩
  · rw [hv.sp, hv.sameExtent.continues.stackBase]
    exact hf.base
  · rw [hv.sp, hv.limit]
    exact hf.room

variable {s : Slot}

/-! ### Bound registers -/

section

variable (hf : f.Ready D L)
include hf

/-- A payload has a register afterwards. -/
theorem dataReg_delivers (hroom : L.count < Reg.count) (hs : s < f.sp) (hc : f.constant? s = none)
    (ht : f.knownType s ≠ .double) :
    Delivers D (dataReg s) f L fun r f' L' => L' = L ∧ f.SameView f' ∧ f'.bound.reg r := by
  have htr := hf.tracks_model hf.room
  obtain ⟨hlb, -⟩ := htr.own_backing ⟨hs, by simp⟩ hc
  refine delivers_loads hf (dataReg_succeeds hf.sound hf.neat hf.lends hroom hc
    (hf.sound.ne_freg hlb ht) ht) (dataReg_ensures htr ⟨hs, by simp⟩) ?_
  rintro r f' m' ⟨hL, hv, hn⟩ ⟨hloads, -, hdata⟩
  refine ⟨hloads, hn, L, hL, id, rfl, hv, ?_⟩
  have hb := (hloads.tracks.sound.data_iff _ r).2 ⟨hv.live.2 hlb, hdata⟩
  simp [bound, hb, Binding.slot?]

/-- A tag has a register afterwards. -/
theorem tagReg_delivers (hroom : L.count < Reg.count) (hs : s < f.sp)
    (ht : f.knownType s = .unknown) :
    Delivers D (tagReg s) f L fun r f' L' => L' = L ∧ f.SameView f' ∧ f'.bound.reg r := by
  have htr := hf.tracks_model hf.room
  have hl := live_of_lt hs
  obtain ⟨hlb, -⟩ := htr.own_backing hl (htr.constant?_of_unknown hl ht)
  refine delivers_loads hf (tagReg_succeeds hf.sound hf.neat hf.lends hroom ht)
    (tagReg_ensures htr hl) ?_
  rintro r f' m' ⟨hL, hv, hn⟩ ⟨hloads, -, -, htag⟩
  refine ⟨hloads, hn, L, hL, id, rfl, hv, ?_⟩
  have hb := (hloads.tracks.sound.tag_iff _ r).2 ⟨hv.live.2 hlb, htag⟩
  simp [bound, hb, Binding.slot?]

/-- A number has a double register afterwards. -/
theorem doubleReg_delivers (hroom : L.fcount < FReg.allocatable) (hs : s < f.sp)
    (hc : f.constant? s = none) (ht : f.knownType s = .double) :
    Delivers D (doubleReg s) f L fun r f' L' => L' = L ∧ f.SameView f' ∧ f'.bound.freg r := by
  have htr := hf.tracks_model hf.room
  have hl := live_of_lt hs
  obtain ⟨hlb, -⟩ := htr.own_backing hl hc
  refine delivers_loads hf (doubleReg_succeeds hf.sound hf.neat hf.lends hroom hlb hc ht)
    (doubleReg_ensures htr hl) ?_
  rintro r f' m' ⟨hL, hv, hn⟩ ⟨hloads, -, -, hdata⟩
  refine ⟨hloads, hn, L, hL, id, rfl, hv, ?_⟩
  have hb := (hloads.tracks.sound.fdata_iff _ r).2 ⟨hv.live.2 hlb, hdata⟩
  simp [bound, hb, Binding.slot?]

/-! ### Temporaries -/

/-- A temporary is handed out. -/
theorem alloc_delivers (hroom : L.count < Reg.count) :
    Delivers D alloc f L fun r f' L' => L' = L.addTemp r ∧ f.SameView f' ∧
      (r.Valid ∧ r ∉ L.temps) ∧ f'.regs.fregs = f.regs.fregs := by
  refine delivers_loads hf (alloc_succeeds hf.sound hf.lends hroom)
    (alloc_ensures (hf.tracks_model hf.room)) ?_
  rintro r f' m' ⟨hL, hlt, hheld, hv, hun, hfregs⟩ ⟨hloads, -⟩
  exact ⟨hloads, hf.neat.unload hv hun, L.addTemp r, hL, fun h => h.addTemp r, rfl, hv,
    ⟨hlt, hf.lends.not_mem_temps hheld⟩, hfregs⟩

/-- A double temporary is handed out. -/
theorem allocDouble_delivers (hroom : L.fcount < FReg.allocatable) :
    Delivers D allocDouble f L fun r f' L' =>
      L' = L.addFTemp r ∧ f.SameView f' ∧ r.Valid ∧ r ∉ L.ftemps := by
  refine delivers_loads hf (allocDouble_succeeds hf.sound hf.lends hroom)
    (allocDouble_ensures (hf.tracks_model hf.room)) ?_
  rintro r f' m' ⟨hL, hlt, hheld, hv, hun⟩ ⟨hloads, -⟩
  exact ⟨hloads, hf.neat.unload hv hun, L.addFTemp r, hL, fun h => h.addFTemp r, rfl, hv,
    Nat.lt_trans hlt (by decide), hf.lends.not_mem_ftemps hheld⟩

/-- A temporary that has been written. -/
theorem delivers_handsOut {x : FrameM Reg} {P : UInt64 → Prop}
    (hs : Succeeds x f (Borrows f none L)) (he : Ensures x f (f.model L (f.limit D))
      (HandsOut f none (f.model L (f.limit D)) (f.sampleValue .int32) P)) :
    Delivers D x f L fun r f' L' =>
      L' = L.addFull r ∧ f.SameView f' ∧ r.Valid ∧ r ∉ L.temps := by
  refine delivers_loads hf hs he ?_
  rintro r f' m' ⟨hL, hheld, hv, -, hn⟩ ⟨hloads, htemp, -, w, hw, -⟩
  have hlt := lt_of_binding htemp rfl
  refine ⟨hloads, hn, L.addFull r, ⟨hL.temp, hL.pinned, hL.ftemp, hL.fpinned⟩,
    fun h => h.addFull (by simp [hw]), rfl, hv, hlt, hf.lends.not_mem_temps hheld⟩

theorem loadTemp_delivers (hroom : L.count < Reg.count) (w : Int64) :
    Delivers D (loadTemp (.imm w)) f L fun r f' L' =>
      L' = L.addFull r ∧ f.SameView f' ∧ r.Valid ∧ r ∉ L.temps :=
  delivers_handsOut hf (loadTemp_succeeds hf.sound hf.neat hf.lends hroom _)
    (loadTemp_ensures (P := fun _ => True) (hf.tracks_model hf.room)
      fun _ _ _ _ => ⟨_, rfl, trivial⟩)

theorem copyData_delivers (hroom : L.count + 1 < Reg.count) (hs : s < f.sp)
    (ht : f.knownType s ≠ .double) :
    Delivers D (copyData s) f L fun r f' L' =>
      L' = L.addFull r ∧ f.SameView f' ∧ r.Valid ∧ r ∉ L.temps := by
  have htr := hf.tracks_model hf.room
  have hlb := (htr.backing ⟨hs, by simp⟩).1
  exact delivers_handsOut hf (copyData_succeeds hf.sound hf.neat hf.lends hroom hlb
    (hf.sound.ne_freg hlb ht)) (copyData_ensures htr ⟨hs, by simp⟩)

/-- A slot that may be a number is one in the model. -/
theorem isNumber_sampleValue (hs : s < f.sp)
    (ht : f.knownType s = .unknown ∨ (f.knownType s).isNumber) :
    (f.sampleValue .int32 s).isNumber := by
  have hdesc := (hf.tracks_model hf.room).describes_knownType (s := s) ⟨hs, by simp⟩
  cases hk : f.knownType s with
  | unknown =>
    rw [hf.sound.sampleValue_unknown hs hk]
    rfl
  | int32 => exact Value.isNumber_of_tag (hdesc.1 .int32 (by rw [hk]; rfl))
  | double => exact hdesc.2 hk
  | _ => simp [hk, KnownType.isNumber] at ht

/-- A number is copied into a double temporary. -/
theorem copyNumber_delivers (hroom : L.count < Reg.count) (hfroom : L.fcount + 1 < FReg.allocatable)
    (hs : s < f.sp) (ht : f.knownType s = .unknown ∨ (f.knownType s).isNumber) :
    Delivers D (copyNumber s) f L fun r f' L' =>
      L' = L.addFFull r ∧ f.SameView f' ∧ r.Valid ∧ r ∉ L.ftemps := by
  have htr := hf.tracks_model hf.room
  have hl := live_of_lt hs
  have hnum := isNumber_sampleValue hf hs ht
  refine delivers_loads hf (copyNumber_succeeds htr hf.neat hf.lends hroom hfroom hl ?_)
    (copyNumber_ensures htr hl) ?_
  · intro v hv
    rw [← Value.isNumber_eq, ← (htr.constant? hl hv).1]
    exact hnum
  · rintro r f' m' ⟨hL, hv, hn⟩ ⟨hloads, htemp, hheld, d, hd, -⟩
    exact ⟨hloads, hn, L.addFFull r, ⟨hL.temp, hL.pinned, hL.ftemp, hL.fpinned⟩,
      fun h => h.addFFull (by simp [hd]), rfl, hv, lt_count_of_ftemp htemp,
      hf.lends.not_mem_ftemps hheld⟩

/-! ### Whole values -/

/-- A value is loaded and pinned, to be stored or returned. -/
theorem source_delivers (hroom : L.count + 1 < Reg.count) (hfroom : L.fcount < FReg.allocatable)
    (hs : s < f.sp) :
    Delivers D (source s) f L fun src f' L' => L' = L.pinSource src ∧ f.SameView f' := by
  have htr := hf.tracks_model hf.room
  have hl := live_of_lt hs
  refine delivers_loads hf (source_succeeds htr hf.neat hf.lends hroom hfroom hl)
    (source_ensures htr hl) ?_
  rintro src f' m' ⟨hL, hv, hn⟩ ⟨hloads, -, c, hc, -⟩
  refine ⟨hloads, hn, L.pinSource src, hL, fun h => ?_, rfl, hv⟩
  cases src with
  | constant c => exact h
  | typed t r =>
    refine h.addPins fun q hq => ?_
    obtain rfl := List.mem_singleton.1 hq
    cases hr : m'.reg q with
    | none => simp [Machine.source?, hr] at hc
    | some w => rfl
  | regs t r =>
    cases ht : m'.reg t with
    | none => simp [Machine.source?, ht] at hc
    | some w =>
      cases hr : m'.reg r with
      | none => simp [Machine.source?, ht, hr] at hc
      | some w' =>
        have h₁ : (L.addPins [t]).Filled m' := h.addPins (by simp [ht])
        exact h₁.addPins (by simp [hr])
  | double r =>
    refine h.addFPins fun q hq => ?_
    obtain rfl := List.mem_singleton.1 hq
    cases hr : m'.freg q with
    | none => simp [Machine.source?, hr] at hc
    | some w => rfl

theorem syncEntry_delivers (hs : s < f.sp) :
    Delivers D (syncEntry s) f L fun _ f' L' => L' = L ∧ f.SameView f' := by
  refine delivers_loads hf (syncEntry_succeeds hf.neat s)
    (syncEntry_ensures (hf.tracks_model hf.room) ⟨hs, by simp⟩) ?_
  rintro - f' m' ⟨hregs, hv, hn⟩ ⟨hloads, -⟩
  exact ⟨hloads, hn, L, hregs ▸ hf.lends, id, rfl, hv⟩

end

/-! ### Assignments -/

/-- What an assignment delivers, with nothing on loan. -/
theorem delivers_assigns {Q : α → Frame → Prop} {N : Nat} (hs : Succeeds x f R)
    (he : Ensures x f (f.model Loans.none N) E)
    (h : ∀ a f' m', R a f' → E a f' m' → (∃ env, f'.Tracks none m' env) ∧ f'.Neat none ∧
      f'.regs.Lends Loans.none ∧ f.Continues f' ∧ f.stackBase ≤ f'.sp ∧ f'.sp ≤ f'.limit D ∧
      N ≤ f'.limit D ∧ Q a f') :
    Delivers D x f Loans.none fun a f' L' => L' = Loans.none ∧ Q a f' := by
  refine delivers_of_model hs he fun a f' m' hr hq => ?_
  obtain ⟨ht, hn, hL, hcont, hbase, hroom, hN, hQ⟩ := h a f' m' hr hq
  exact ⟨Loans.none, ht, hn, hL, Loans.filled_none m', hcont.stackBase ▸ hbase, hroom, hN, hcont,
    rfl, hQ⟩

/-- A variable is assigned. -/
theorem storeVar_delivers (hf : f.Ready D Loans.none) {v : Bytecode.Var}
    (hv : f.varSlot v < f.stackBase) (hdepth : f.stackBase < f.sp) (popped : Bool) :
    Delivers D (storeVar v popped) f Loans.none fun _ f' L' => L' = Loans.none ∧
      f'.sp = if popped then f.sp - 1 else f.sp := by
  have htr := hf.tracks_model hf.room
  refine delivers_assigns (storeVar_succeeds htr hf.neat hf.lends (by decide) (by decide)
    (by lia) popped) (storeVar_ensures htr (by lia) v popped) ?_
  rintro - f' m' ⟨hL, hn⟩ ⟨ht, -, hcont, hsp⟩
  refine ⟨⟨_, ht⟩, hn, hL, hcont, ?_, ?_, hcont.limit D, hsp⟩
  · rw [hsp]
    split <;> lia
  · have := hf.room
    have := hcont.limit D
    rw [hsp]
    split <;> lia

/-- The topmost value is moved down. -/
theorem shimmy_delivers {n : Nat} (hf : f.Ready D Loans.none) (hpos : 0 < n)
    (hdepth : f.stackBase + n < f.sp) :
    Delivers D (shimmy n) f Loans.none fun _ f' L' => L' = Loans.none ∧ f'.sp = f.sp - n := by
  have htr := hf.tracks_model hf.room
  refine delivers_assigns (shimmy_succeeds htr hf.neat hf.lends (by decide) (by decide) hpos
    (by lia)) (shimmy_ensures htr (by lia)) ?_
  rintro - f' m' ⟨hL, hn⟩ ⟨ht, -, hcont, hsp⟩
  have := hf.room
  have := hcont.limit D
  exact ⟨⟨_, ht⟩, hn, hL, hcont, by lia, by lia, hcont.limit D, hsp⟩

/-- The two topmost values are exchanged. -/
theorem swap_delivers (hf : f.Ready D Loans.none) (hdepth : f.stackBase + 1 < f.sp) :
    Delivers D swap f Loans.none fun _ f' L' => L' = Loans.none ∧ f'.sp = f.sp := by
  have hN : f.sp ≤ max (f.limit D) (f.sp + 1) := by lia
  have htr := hf.tracks_model hN
  have hslots : f.sp < (f.model Loans.none (max (f.limit D) (f.sp + 1))).slots.size := by
    rw [size_model]
    lia
  refine delivers_assigns (swap_succeeds htr hf.neat hf.lends (by decide) (by decide) (by lia)
    hslots) (swap_ensures htr (by lia) hslots) ?_
  rintro - f' m' ⟨hL, hn⟩ ⟨ht, -, hcont, hsp, hmax⟩
  have := hcont.limit D
  have := hf.base
  have hlimit : f.sp + 1 ≤ f'.limit D := by
    simp only [limit]
    lia
  exact ⟨⟨_, ht⟩, hn, hL, hcont, by lia, by lia, by lia, hsp⟩

end FrameM

end FastPath
