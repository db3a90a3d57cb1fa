import FastPath.Proofs.Frame.Delivery
import FastPath.Proofs.Frame.Memory
import FastPath.Proofs.Frame.Types
import FastPath.Compile.Element

/-!
# Operations that emit nothing, or only stores

Giving back registers, popping and pushing change the frame and emit no code. Bringing memory
up to date emits code that writes no register. Both leave alone which registers have contents,
so an emitter may still read a register that the frame has given up.
-/

namespace FastPath

open Frame RegisterFile Entry

/-! ### Code that writes no register -/

namespace Block

variable {n : Nat} {is : List Inst} {P P' Q : Shape}

/-- Code that writes no register leaves every shape as it is. -/
theorem of_stores (h : Block n is P Q) (hs : ∀ i ∈ is, ∀ S, i.after S = S) (hP : P'.Covers P) :
    Block n is P' P' := by
  induction h with
  | nil => exact .nil (.refl P')
  | @cons i is P Q hl hr _ ih =>
    have hi := hs i (by simp)
    rw [hi] at ih
    refine .cons hl (hr.mono (Nat.le_refl n) hP) ?_
    rw [hi]
    exact ih (fun j hj => hs j (by simp [hj])) hP

end Block

namespace Frame

variable {f : Frame} {L : Loans} {P : Shape} {D : Nat}

variable {s : Slot}

theorem after_entrySyncCode {i : Inst} (hi : i ∈ f.entrySyncCode s) (S : Shape) :
    i.after S = S := by
  unfold entrySyncCode copySyncCode dataSyncCode tagSyncCode at hi
  grind [Inst.after]

/-- Storing a frame. -/
theorem Ready.block_syncCode (h : f.Ready D L) (hP : P.Covers f.bound) :
    Block (f.limit D) f.syncCode P P := by
  have htr : f.Tracks none ((f.sample .int32 (f.limit D)).within f.bound) (f.sampleValue .int32) :=
    (h.sound.tracks_sample h.room).within (.refl _)
  obtain ⟨m', hruns, -⟩ := htr.runs_syncCode
  obtain ⟨hblock, -⟩ := hruns.block
  refine (hblock.mono (Nat.le_of_eq size_sample) (.refl _) (.refl _)).of_stores ?_
    (hP.trans Machine.covers_shape_within)
  intro i hi S
  obtain ⟨s, -, hs⟩ := List.mem_flatMap.1 hi
  exact after_entrySyncCode hs S

/-- Loading the registers of a frame. -/
theorem Ready.block_mergeCode (h : f.Ready D L) (P : Shape) :
    Block (f.limit D) f.mergeCode P f.bound := by
  have htr := h.sound.tracks_sample (D := Cell.anyCell) (k := .int32) h.room
  have hsaved : f.Saved ((f.sample .int32 (f.limit D)).within .none) (f.sampleValue .int32) := by
    refine Saved.of_slots (m := f.sample .int32 (f.limit D)) ⟨htr.room, htr.admits, ?_⟩ rfl
    intro s hs
    refine has_sample (Nat.lt_of_lt_of_le hs h.room) (.refl fun hd => ?_)
    exact (htr.describes_knownType (live_of_lt hs)).2 hd
  obtain ⟨m', hruns, -, -, ht⟩ := hsaved.runs_mergeCode h.sound
  obtain ⟨hblock, -⟩ := hruns.block
  exact hblock.mono (Nat.le_of_eq size_sample)
    ((Shape.covers_none P).trans Machine.covers_shape_within) ht.covers_bound

/-! ### Popping and pushing -/

/-- A pop needs no more registers. -/
theorem bound_covers_pop : f.bound.Covers f.pop.bound := by
  refine ⟨fun r hr => ?_, fun r hr => ?_⟩
  · change ((freeTag (freeData f.regs (f.entry (f.peek 1)).data) (f.entry (f.peek 1)).tag).binding
      r).slot?.isSome at hr
    rw [binding_release] at hr
    split at hr
    · cases hr
    · exact hr
  · change ((freeTag (freeData f.regs (f.entry (f.peek 1)).data) (f.entry (f.peek 1)).tag).fbinding
      r).slot?.isSome at hr
    rw [fbinding_release] at hr
    split at hr
    · cases hr
    · exact hr

theorem Ready.pop (h : f.Ready D L) (hs : f.stackBase < f.sp) : f.pop.Ready D L where
  __ := h
  sound := ((h.tracks_model h.room).pop (by lia)).sound
  neat := h.neat.pop
  base := Nat.le_sub_one_of_lt hs
  room := Nat.le_trans (Nat.sub_le _ _) h.room
  lends := h.lends.pop h.sound (by lia)

theorem bound_covers_popN (n : Nat) (f : Frame) : f.bound.Covers (popN n f).bound := by
  induction n generalizing f with
  | zero => exact .refl _
  | succ n ih => exact bound_covers_pop.trans (ih f.pop)

theorem Ready.popN {n : Nat} (h : f.Ready D L) (hs : f.stackBase + n ≤ f.sp) :
    (popN n f).Ready D L := by
  induction n generalizing f with
  | zero => exact h
  | succ n ih =>
    refine ih (h.pop (by lia)) ?_
    change f.stackBase + n ≤ f.sp - 1
    lia

theorem Ready.push (h : f.Ready D L) {e : Entry} (hs : (f.push e).Sound none) (he : e.Neat) :
    (f.push e).Ready D L where
  __ := h
  sound := hs
  neat := h.neat.push h.sound.sp_le he
  base := Nat.le_succ_of_le h.base
  room := by
    change f.sp + 1 ≤ max (max f.maxSp (f.sp + 1)) D
    lia

theorem Ready.pushConstant (h : f.Ready D L) {v : Value} (hv : v.tag ≠ .object) :
    (f.pushConstant v).Ready D L :=
  h.push (h.sound.pushConstant v) (neat_constant hv)

theorem Ready.pushSynced (h : f.Ready D L) (types : TypeSet) : (f.pushSynced types).Ready D L :=
  h.push (h.sound.pushSynced types) (neat_inMemory types)

/-- A copy may be pushed. -/
theorem Ready.pushCopy (h : f.Ready D L) (hs : s < f.sp) :
    (f.pushCopy s).Ready D L where
  __ := h
  sound := ((h.tracks_model (Nat.le_succ _)).pushCopy hs (by simp [size_model])).sound
  neat := h.neat.pushCopy h.sound.sp_le ((h.tracks_model h.room).backing (live_of_lt hs)).1
  base := by
    rw [(continues_pushCopy f s).stackBase, sp_pushCopy]
    exact Nat.le_succ_of_le h.base
  room := by
    rw [limit, sp_pushCopy, maxSp_pushCopy]
    lia
  lends := regs_pushCopy f s ▸ h.lends

theorem bound_pushCopy (f : Frame) (s : Slot) : (f.pushCopy s).bound = f.bound := by
  unfold bound
  rw [regs_pushCopy]

/-! ### Notes -/

theorem Ready.noteTypes (h : f.Ready D L) (s : Slot) (types : TypeSet) :
    (f.update s fun e => { e with types }).Ready D L where
  __ := h
  sound := h.sound.of_notes _ fun e => ⟨types, e.init, rfl⟩
  neat := h.neat.update fun hl => ⟨(h.neat _ hl).data, (h.neat _ hl).init,
    (h.neat _ hl).constant⟩

/-- Only a slot that owns an object is noted to be a literal under construction. -/
theorem Ready.setInitTarget (h : f.Ready D L) {init : Option InitTarget}
    (hinit : init ≠ none → (f.backingEntry s).role = .own ∧ (f.backingEntry s).type = .object) :
    (f.setInitTarget s init).Ready D L where
  __ := h
  sound := h.sound.of_notes _ fun e => ⟨e.types, init, rfl⟩
  neat := h.neat.update fun hl => ⟨(h.neat _ hl).data, hinit, (h.neat _ hl).constant⟩

/-! ### Dropping every register -/

theorem Ready.synced (h : f.Ready D L) : (f.mapLive synced).Ready D L where
  __ := h
  sound := by
    obtain ⟨m', -, -, -, ht⟩ := (h.tracks_model h.room).runs_syncCode
    exact ht.sound
  neat := by
    intro s hl
    rw [entry_mapLive f _ s h.sound.sp_le, if_pos (show s < f.sp from hl.1)]
    have he := h.neat s hl
    exact ⟨he.data, he.init, he.constant⟩

theorem lends_reset (g : RegisterFile) : g.reset.Lends Loans.none := by
  constructor <;> simp [Loans.none]

/-- Once memory has every value, all registers may be given up. -/
theorem Ready.killed (h : f.Ready D L) : (f.mapLive Entry.synced).killed.Ready D Loans.none where
  __ := h
  sound := by
    have htr := h.synced.tracks_model (N := f.limit D) h.synced.room
    exact (htr.kill (synced_mapLive h.sound.sp_le) rfl).sound
  neat := by
    intro s hl
    rw [entry_killed h.synced.sound.sp_le, if_pos (show s < (f.mapLive Entry.synced).sp from hl.1)]
    have he := h.synced.neat s hl
    exact ⟨nofun, he.init, he.constant⟩
  lends := lends_reset _
  temp := nofun
  ftemp := nofun

theorem Ready.reset {depth : Nat} (h : f.Ready D L) (hroom : f.stackBase + depth ≤ f.limit D) :
    (f.reset depth).Ready D Loans.none where
  sound := sound_reset (Nat.le_trans h.base h.sound.sp_le) depth
  neat := by
    intro s hl
    rw [entry_reset (Nat.le_trans h.base h.sound.sp_le) hl.1]
    exact neat_inMemory _
  base := Nat.le_add_right _ _
  room := hroom
  lends := lends_reset _
  temp := nofun
  ftemp := nofun

/-- A frame without registers needs none to have contents. -/
theorem covers_of_unbound {P : Shape} (hregs : ∀ r, f.regs.binding r = .free)
    (hfregs : ∀ r, f.regs.fbinding r = .free) : P.Covers (Loans.none.shape f) := by
  refine ⟨fun r hr => ?_, fun r hr => ?_⟩
  · rcases hr with hr | hr | hr
    · simp [bound, hregs, Binding.slot?] at hr
    · cases hr
    · cases hr
  · rcases hr with hr | hr | hr
    · simp [bound, hfregs, Binding.slot?] at hr
    · cases hr
    · cases hr

theorem covers_killed (P : Shape) (f : Frame) : P.Covers (Loans.none.shape f.killed) :=
  covers_of_unbound (fun _ => binding_reset ..) fun _ => fbinding_reset ..

theorem covers_reset (P : Shape) (f : Frame) (depth : Nat) :
    P.Covers (Loans.none.shape (f.reset depth)) :=
  covers_of_unbound (fun _ => binding_reset ..) fun _ => fbinding_reset ..

end Frame

/-! ### Operations that emit nothing -/

namespace RegisterFile.Lends

variable {g : RegisterFile} {L : Loans}

variable {b : Binding}

theorem drop (h : g.Lends L) {r : Reg} (hb : b ≠ .temp) (hr : r ∈ L.temps) :
    (g.bind r b).Lends (L.dropTemp r) := by
  have hlt := lt_of_binding ((h.temp r).2 hr) rfl
  obtain ⟨h₁, h₂, h₃, h₄⟩ := h
  constructor <;> grind [Loans.dropTemp]

theorem fdrop (h : g.Lends L) {r : FReg} (hb : b ≠ .temp) (hr : r ∈ L.ftemps) :
    (g.fbind r b).Lends (L.dropFTemp r) := by
  have hlt := lt_of_fbinding ((h.ftemp r).2 hr) rfl
  obtain ⟨h₁, h₂, h₃, h₄⟩ := h
  constructor <;> grind [Loans.dropFTemp]

theorem unpin (h : g.Lends L) (r : Reg) : (g.setPinned r false).Lends (L.dropPins [r]) := by
  have hlt : ∀ q, g.isPinned q → q.index < Reg.count := fun _ => lt_of_isPinned
  obtain ⟨h₁, h₂, h₃, h₄⟩ := h
  constructor <;> grind [Loans.dropPins]

theorem funpin (h : g.Lends L) (r : FReg) : (g.setFPinned r false).Lends (L.dropFPins [r]) := by
  have hlt : ∀ q, g.isFPinned q → q.index < FReg.allocatable := fun _ => lt_of_isFPinned
  obtain ⟨h₁, h₂, h₃, h₄⟩ := h
  constructor <;> grind [Loans.dropFPins]

/-- Where nothing is on loan, nothing is counted. -/
theorem liveFault?_eq_none {f : Frame} (h : f.regs.Lends Loans.none) : f.liveFault? = none := by
  have hregs : ∀ s ∈ f.regs.regs.toList, s.binding ≠ .temp ∧ s.pinned = false := by
    intro s hs
    obtain ⟨i, hi, rfl⟩ := List.getElem_of_mem hs
    simp only [Vector.length_toList] at hi
    have ht := (h.temp ⟨i⟩).not.2 (by simp [Loans.none])
    have hp := (h.pinned ⟨i⟩).not.2 (by simp [Loans.none])
    simp only [binding, isPinned, Bank.binding, Bank.isPinned, Vector.getElem?_eq_getElem hi,
      Option.map_some, Option.getD_some] at ht hp
    simpa using And.intro ht hp
  have hfregs : ∀ s ∈ f.regs.fregs.toList, s.binding ≠ .temp ∧ s.pinned = false := by
    intro s hs
    obtain ⟨i, hi, rfl⟩ := List.getElem_of_mem hs
    simp only [Vector.length_toList] at hi
    have ht := (h.ftemp ⟨i⟩).not.2 (by simp [Loans.none])
    have hp := (h.fpinned ⟨i⟩).not.2 (by simp [Loans.none])
    simp only [fbinding, isFPinned, Bank.binding, Bank.isPinned, Vector.getElem?_eq_getElem hi,
      Option.map_some, Option.getD_some] at ht hp
    simpa using And.intro ht hp
  have htemps : f.regs.tempCount = 0 := by
    refine List.countP_eq_zero.2 fun s hs => ?_
    rcases List.mem_append.1 hs with hs | hs
    · simpa using (hregs s hs).1
    · simpa using (hfregs s hs).1
  have hpins : f.regs.pinnedCount = 0 := by
    refine List.countP_eq_zero.2 fun s hs => ?_
    rcases List.mem_append.1 hs with hs | hs
    · simpa using (hregs s hs).2
    · simpa using (hfregs s hs).2
  simp [liveFault?, htemps, hpins]

end RegisterFile.Lends

/-- A ready frame with nothing on loan has nothing wrong with it. -/
theorem Frame.Ready.fault?_eq_none {f : Frame} {D : Nat} (h : f.Ready D Loans.none) :
    f.fault? = none := by
  rw [h.sound.fault?_eq, h.lends.liveFault?_eq_none]

namespace Loans

variable {L : Loans} {f f' : Frame} {P : Shape}

theorem dropTemp_comm (L : Loans) (r r' : Reg) :
    (L.dropTemp r).dropTemp r' = (L.dropTemp r').dropTemp r := by
  simp only [dropTemp, List.filter_filter, Bool.and_comm]

theorem full_dropTemp (h : L.full ⊆ L.temps) (r : Reg) :
    (L.dropTemp r).full ⊆ (L.dropTemp r).temps := by
  intro q hq
  simp only [dropTemp, List.mem_filter] at hq ⊢
  exact ⟨h hq.1, hq.2⟩

theorem ffull_dropFTemp (h : L.ffull ⊆ L.ftemps) (r : FReg) :
    (L.dropFTemp r).ffull ⊆ (L.dropFTemp r).ftemps := by
  intro q hq
  simp only [dropFTemp, List.mem_filter] at hq ⊢
  exact ⟨h hq.1, hq.2⟩

variable {b : Binding}

/-- A register that changes hands is no temporary any more. -/
theorem covers_dropTemp (hP : P.Covers (L.shape f)) {r : Reg} (hr : b.slot?.isSome → P.reg r)
    (hregs : f'.regs = f.regs.bind r b) : P.Covers ((L.dropTemp r).shape f') := by
  refine ⟨fun q hq => ?_, fun q hq => ?_⟩
  · rcases hq with hq | hq | hq
    · change (f'.regs.binding q).slot?.isSome at hq
      rw [hregs, binding_bind] at hq
      split at hq
      · next hqr => exact hqr.1 ▸ hr hq
      · exact hP.reg q (.inl hq)
    · exact hP.reg q (shape_pin f hq)
    · exact hP.reg q (shape_full f (List.mem_filter.1 hq).1)
  · rcases hq with hq | hq | hq
    · change (f'.regs.fbinding q).slot?.isSome at hq
      rw [hregs, fbinding_bind] at hq
      exact hP.freg q (.inl hq)
    · exact hP.freg q (shape_fpin f hq)
    · exact hP.freg q (shape_ffull f hq)

theorem covers_dropFTemp (hP : P.Covers (L.shape f)) {r : FReg} (hr : b.slot?.isSome → P.freg r)
    (hregs : f'.regs = f.regs.fbind r b) : P.Covers ((L.dropFTemp r).shape f') := by
  refine ⟨fun q hq => ?_, fun q hq => ?_⟩
  · rcases hq with hq | hq | hq
    · change (f'.regs.binding q).slot?.isSome at hq
      rw [hregs, binding_fbind] at hq
      exact hP.reg q (.inl hq)
    · exact hP.reg q (shape_pin f hq)
    · exact hP.reg q (shape_full f hq)
  · rcases hq with hq | hq | hq
    · change (f'.regs.fbinding q).slot?.isSome at hq
      rw [hregs, fbinding_fbind] at hq
      split at hq
      · next hqr => exact hqr.1 ▸ hr hq
      · exact hP.freg q (.inl hq)
    · exact hP.freg q (shape_fpin f hq)
    · exact hP.freg q (shape_ffull f (List.mem_filter.1 hq).1)

/-- What is on loan may change as long as no register becomes that of a slot. -/
theorem covers_of_bound {L' : Loans} (hP : P.Covers (L.shape f)) (hb : f.bound.Covers f'.bound)
    (hpins : ∀ r ∈ L'.pins, P.reg r) (hfpins : ∀ r ∈ L'.fpins, P.freg r)
    (hfull : L'.full ⊆ L.full) (hffull : L'.ffull ⊆ L.ffull) : P.Covers (L'.shape f') := by
  refine ⟨fun q hq => ?_, fun q hq => ?_⟩
  · rcases hq with hq | hq | hq
    · exact hP.reg q (.inl (hb.reg q hq))
    · exact hpins q hq
    · exact hP.reg q (shape_full f (hfull hq))
  · rcases hq with hq | hq | hq
    · exact hP.freg q (.inl (hb.freg q hq))
    · exact hfpins q hq
    · exact hP.freg q (shape_ffull f (hffull hq))

end Loans

namespace FrameM

variable {α β : Type} {f : Frame} {L : Loans} {P : Shape} {D : Nat}

/-- The operation succeeds and emits nothing. It leaves the frame ready, and the registers of
`P` still include all that should have contents. -/
def Settles (D : Nat) (x : FrameM α) (f : Frame) (L : Loans) (P : Shape)
    (Q : α → Frame → Loans → Prop) : Prop :=
  f.Ready D L → P.Covers (L.shape f) → ∀ code, ∃ a f' L', x ⟨f, code⟩ = .ok a ⟨f', code⟩ ∧
    f'.Ready D L' ∧ P.Covers (L'.shape f') ∧ f.Continues f' ∧ Q a f' L'

variable {x : FrameM α} {Q : α → Frame → Loans → Prop} {g : Frame → Frame} {r : Reg}
  {types : TypeSet}

theorem Settles.mono {Q' : α → Frame → Loans → Prop} (h : Settles D x f L P Q)
    (hQ : ∀ a f' L', Q a f' L' → Q' a f' L') : Settles D x f L P Q' := by
  intro hf hP code
  obtain ⟨a, f', L', hx, hf', hP', hcont, hq⟩ := h hf hP code
  exact ⟨a, f', L', hx, hf', hP', hcont, hQ _ _ _ hq⟩

theorem settles_pure {a : α} (h : Q a f L) : Settles D (pure a) f L P Q :=
  fun hf hP _ => ⟨a, f, L, rfl, hf, hP, (SameExtent.refl f).continues, h⟩

theorem settles_bind {k : α → FrameM β} {Q : β → Frame → Loans → Prop}
    (h : Settles D x f L P fun a f' L' => Settles D (k a) f' L' P Q) :
    Settles D (x >>= k) f L P Q := by
  intro hf hP code
  obtain ⟨a, f', L', hx, hf', hP', hcont, hk⟩ := h hf hP code
  obtain ⟨b, f'', L'', hy, hf'', hP'', hcont', hq⟩ := hk hf' hP' code
  exact ⟨b, f'', L'', by rw [bind_run, hx]; exact hy, hf'', hP'', hcont.trans hcont', hq⟩

/-- An operation that changes the frame and nothing else. -/
theorem settles_of_run (a : α) (f' : Frame) (L' : Loans)
    (hx : ∀ code, x ⟨f, code⟩ = .ok a ⟨f', code⟩) (hf : f.Ready D L → f'.Ready D L')
    (hP : P.Covers (L.shape f) → P.Covers (L'.shape f')) (hcont : f.Continues f') (h : Q a f' L') :
    Settles D x f L P Q :=
  fun hf' hP' code => ⟨a, f', L', hx code, hf hf', hP hP', hcont, h⟩

theorem settles_update {L' : Loans} {Q : Unit → Frame → Loans → Prop}
    (hf : f.Ready D L → (g f).Ready D L') (hP : P.Covers (L.shape f) → P.Covers (L'.shape (g f)))
    (hcont : f.Continues (g f)) (h : Q () (g f) L') : Settles D (update g) f L P Q :=
  settles_of_run () (g f) L' (fun _ => rfl) hf hP hcont h

/-! ### Giving back -/

/-- A temporary is given back. -/
theorem free_settles (hr : r ∈ L.temps) :
    Settles D (free r) f L P fun _ f' L' => L' = L.dropTemp r ∧ f.SameView f' := by
  intro hf hP
  have htemp := (hf.lends.temp r).2 hr
  have hsound : (f.mapRegs (·.bind r .free)).Sound none :=
    ((hf.tracks_model hf.room).of_regs (g := f.regs.bind r .free)
      (by grind [Binding.slot?]) fun _ => .inl rfl).sound
  refine settles_of_run () (f.mapRegs (·.bind r .free)) (L.dropTemp r) ?_ ?_ ?_
    (SameView.mapRegs f _).sameExtent.continues ⟨rfl, .mapRegs f _⟩ hf hP
  · intro code
    simp only [free, bind_run, frame_run, htemp, if_true]
    rfl
  · intro hf
    exact ⟨hsound, hf.neat.mapRegs _, hf.base, hf.room, hf.lends.drop (by simp) hr,
      Loans.full_dropTemp hf.temp r, hf.ftemp⟩
  · exact fun hP => Loans.covers_dropTemp hP (by simp [Binding.slot?]) rfl

/-- A double temporary is given back. -/
theorem freeDouble_settles {r : FReg} (hr : r ∈ L.ftemps) :
    Settles D (freeDouble r) f L P fun _ f' L' => L' = L.dropFTemp r ∧ f.SameView f' := by
  intro hf hP
  have htemp := (hf.lends.ftemp r).2 hr
  have hsound : (f.mapRegs (·.fbind r .free)).Sound none :=
    ((hf.tracks_model hf.room).of_regs (g := f.regs.fbind r .free)
      (fun _ => .inl rfl) (by grind [Binding.slot?])).sound
  refine settles_of_run () (f.mapRegs (·.fbind r .free)) (L.dropFTemp r) ?_ ?_ ?_
    (SameView.mapRegs f _).sameExtent.continues ⟨rfl, .mapRegs f _⟩ hf hP
  · intro code
    simp only [freeDouble, bind_run, frame_run, htemp, if_true]
    rfl
  · intro hf
    exact ⟨hsound, hf.neat.mapRegs _, hf.base, hf.room, hf.lends.fdrop (by simp) hr, hf.temp,
      Loans.ffull_dropFTemp hf.ftemp r⟩
  · exact fun hP => Loans.covers_dropFTemp hP (by simp [Binding.slot?]) rfl

/-! ### Pins -/

/-- Changing pins and no binding. -/
theorem settles_pins {a : α} {g : RegisterFile → RegisterFile} (L' : Loans)
    (hx : ∀ code, x ⟨f, code⟩ = .ok a ⟨f.mapRegs g, code⟩)
    (hb : ∀ r, (g f.regs).binding r = f.regs.binding r)
    (hfb : ∀ r, (g f.regs).fbinding r = f.regs.fbinding r)
    (hL : f.regs.Lends L → (g f.regs).Lends L')
    (htemps : L' = { L with pins := L'.pins, fpins := L'.fpins })
    (hpins : ∀ r ∈ L'.pins, r ∈ L.pins ∨ P.reg r) (hfpins : ∀ r ∈ L'.fpins, r ∈ L.fpins ∨ P.freg r)
    (h : Q a (f.mapRegs g) L') : Settles D x f L P Q := by
  refine settles_of_run a _ L' hx ?_ ?_ (SameView.mapRegs f g).sameExtent.continues h
  · intro hf
    refine ⟨hf.sound.mapRegs hb hfb, hf.neat.mapRegs g, hf.base, hf.room, hL hf.lends, ?_, ?_⟩
    · rw [htemps]
      exact hf.temp
    · rw [htemps]
      exact hf.ftemp
  · intro hP
    refine Loans.covers_of_bound hP ⟨fun r hr => ?_, fun r hr => ?_⟩ ?_ ?_ ?_ ?_
    · change ((g f.regs).binding r).slot?.isSome at hr
      rwa [hb] at hr
    · change ((g f.regs).fbinding r).slot?.isSome at hr
      rwa [hfb] at hr
    · exact fun r hr => (hpins r hr).elim (fun h => hP.reg r (Loans.shape_pin f h)) id
    · exact fun r hr => (hfpins r hr).elim (fun h => hP.freg r (Loans.shape_fpin f h)) id
    · rw [htemps]
      exact List.Subset.refl _
    · rw [htemps]
      exact List.Subset.refl _

/-- Pinning a register: it is new on the list or was there. -/
theorem pin_settles (hr : P.reg r) (hlt : r.Valid) :
    Settles D (CompileM.pin r) f L P fun pins f' L' => L' = L.addPins pins ∧
      (pins = [] ∨ pins = [r]) ∧ r ∈ L'.pins ∧ f.SameView f' := by
  intro hf hP
  have hL := hf.lends.pin hlt
  cases hp : f.regs.isPinned r with
  | true =>
    have hmem := (hf.lends.pinned r).1 hp
    refine settles_pins (a := []) (g := (·.setPinned r true)) L ?_ ?_ ?_ ?_ rfl
      (fun _ => .inl) (fun _ => .inl) ⟨rfl, .inl rfl, hmem, .mapRegs f _⟩ hf hP
    · intro code
      simp only [CompileM.pin, pin, bind_run, frame_run, updateRegs_run, pure_run, hp]
      rfl
    · simp
    · simp
    · rintro -
      obtain ⟨h₁, h₂, h₃, h₄⟩ := hL
      constructor <;> grind [Loans.addPins]
  | false =>
    refine settles_pins (a := [r]) (g := (·.setPinned r true)) (L.addPins [r]) ?_ ?_ ?_ ?_
      rfl ?_ (fun _ => .inl) ⟨rfl, .inr rfl, by simp [Loans.addPins], .mapRegs f _⟩ hf hP
    · intro code
      simp only [CompileM.pin, pin, bind_run, frame_run, updateRegs_run, pure_run, hp]
      rfl
    · simp
    · simp
    · exact fun hL => hL.pin hlt
    · intro q hq
      simp only [Loans.addPins, List.cons_append, List.nil_append, List.mem_cons] at hq
      exact hq.elim (fun h => .inr (h ▸ hr)) .inl

theorem unpin_settles (r : Reg) :
    Settles D (unpin r) f L P fun _ f' L' => L' = L.dropPins [r] ∧ f.SameView f' :=
  settles_pins (g := (·.setPinned r false)) _ (fun _ => rfl) (by simp) (by simp)
    (fun hL => hL.unpin r) rfl (fun _ hq => .inl (List.mem_filter.1 hq).1) (fun _ => .inl)
    ⟨rfl, .mapRegs f _⟩

theorem dropPins_cons (L : Loans) (r : Reg) (rs : List Reg) :
    (L.dropPins [r]).dropPins rs = L.dropPins (r :: rs) := by
  simp only [Loans.dropPins, List.filter_filter]
  congr 1
  refine List.filter_congr fun q _ => ?_
  simp [Bool.and_comm]

theorem unpinAll_settles (rs : List Reg) :
    Settles D (CompileM.unpinAll rs) f L P fun _ f' L' => L' = L.dropPins rs ∧ f.SameView f' := by
  induction rs generalizing f L with
  | nil => exact settles_pure ⟨by simp [Loans.dropPins], .refl f⟩
  | cons r rs ih =>
    refine settles_bind ((unpin_settles r).mono ?_)
    rintro - f₁ L₁ ⟨rfl, hv⟩
    refine ih.mono ?_
    rintro - f₂ L₂ ⟨rfl, hv'⟩
    exact ⟨dropPins_cons L r rs, hv.trans hv'⟩

/-- The pins of a loaded value are taken off. -/
theorem unpinSource_settles (src : Source) :
    Settles D (unpinSource src) f L P fun _ f' L' => L' = L.unpinSource src ∧ f.SameView f' := by
  cases src with
  | constant c => exact settles_pure ⟨rfl, .refl f⟩
  | typed t r => exact unpin_settles r
  | regs t r =>
    refine settles_bind ((unpin_settles t).mono ?_)
    rintro - f₁ L₁ ⟨rfl, hv⟩
    refine (unpin_settles r).mono ?_
    rintro - f₂ L₂ ⟨rfl, hv'⟩
    exact ⟨rfl, hv.trans hv'⟩
  | double r =>
    exact settles_pins (g := (·.setFPinned r false)) _ (fun _ => rfl) (by simp) (by simp)
      (fun hL => hL.funpin r) rfl (fun _ => .inl) (fun _ hq => .inl (List.mem_filter.1 hq).1)
      ⟨rfl, .mapRegs f _⟩

/-! ### Pushing registers -/

/-- A push that hands registers to the new slot. -/
theorem settles_push {x : FrameM Slot} {e : Entry} {g : RegisterFile} (L' : Loans)
    (hx : ∀ code, x ⟨f, code⟩ = .ok f.sp ⟨{ f.push e with regs := g }, code⟩)
    (hs : f.Ready D L → ({ f.push e with regs := g } : Frame).Sound none) (he : e.Neat)
    (hL : f.regs.Lends L → g.Lends L')
    (hfull : L.full ⊆ L.temps → L'.full ⊆ L'.temps)
    (hffull : L.ffull ⊆ L.ftemps → L'.ffull ⊆ L'.ftemps)
    (hP : P.Covers (L.shape f) → P.Covers (L'.shape { f.push e with regs := g })) :
    Settles D x f L P fun s f' M => s = f.sp ∧ M = L' ∧ f'.sp = f.sp + 1 := by
  refine settles_of_run f.sp _ L' hx ?_ hP ⟨rfl, rfl, Nat.le_max_left _ _, rfl, rfl⟩ ⟨rfl, rfl, rfl⟩
  intro hf
  refine ⟨hs hf, hf.neat.push hf.sound.sp_le he, Nat.le_succ_of_le hf.base, ?_, hL hf.lends,
    hfull hf.temp, hffull hf.ftemp⟩
  change f.sp + 1 ≤ max (max f.maxSp (f.sp + 1)) D
  lia

/-- A temporary becomes a value of a known type. -/
theorem pushTyped_settles {t : KnownType} (ht : t.tag?.isSome) (hr : r ∈ L.temps) (hP : P.reg r) :
    Settles D (pushTyped t r) f L P fun s f' L' =>
      s = f.sp ∧ L' = L.dropTemp r ∧ f'.sp = f.sp + 1 := by
  intro hf
  have htemp := (hf.lends.temp r).2 hr
  have hlt := lt_of_binding htemp rfl
  have hrun : ∀ code, pushTyped t r ⟨f, code⟩ = .ok f.sp
      ⟨{ f.push { unsynced t (.ofKnown t) with data := .reg r } with
        regs := f.regs.bind r (.data f.sp) }, code⟩ := by
    intro code
    obtain ⟨tag, htag⟩ := Option.isSome_iff_exists.1 ht
    simp only [pushTyped, htag, Option.isNone_some, Bool.false_eq_true, if_false, bind_run,
      frame_run, pure_run, htemp, if_true]
    rfl
  refine settles_push (L.dropTemp r) hrun ?_ ?_ (fun hL => hL.drop (by simp) hr)
    (fun h => Loans.full_dropTemp h r) id
    (fun hc => Loans.covers_dropTemp hc (fun _ => hP) rfl) hf
  · intro hf
    obtain ⟨tag, htag⟩ := Option.isSome_iff_exists.1 ht
    have htr := hf.sound.tracks_sample (D := Cell.anyCell) (k := t) (Nat.le_succ f.sp)
    have hdec := t.reads_sample (D := Cell.anyCell)
    obtain ⟨is, m', -, -, -, -, -, -, -, htr'⟩ :=
      pushTyped_ensures htr (by simp [size_sample])
      (r := r) (v := t.sample) (by rw [reg_sample hlt, htemp])
      (fun tag' htag' => by rw [← t.tag_sample htag']; exact hdec) #[] _ _ (hrun #[])
    exact htr'.sound
  · refine ⟨fun q hq hd => ?_, nofun, nofun⟩
    simp only [unsynced] at hd
    simp [hd, KnownType.tag?] at ht

/-- A double temporary becomes a number. -/
theorem pushDouble_settles {r : FReg} (hr : r ∈ L.ftemps) (hP : P.freg r) :
    Settles D (pushDouble r) f L P fun s f' L' =>
      s = f.sp ∧ L' = L.dropFTemp r ∧ f'.sp = f.sp + 1 := by
  intro hf
  have htemp := (hf.lends.ftemp r).2 hr
  have hlt := lt_of_fbinding htemp rfl
  have hrun : ∀ code, pushDouble r ⟨f, code⟩ = .ok f.sp
      ⟨{ f.push { unsynced .double (.ofKnown .double) with data := .freg r } with
        regs := f.regs.fbind r (.data f.sp) }, code⟩ := by
    intro code
    simp only [pushDouble, bind_run, frame_run, pure_run, htemp, if_true]
    rfl
  refine settles_push (L.dropFTemp r) hrun ?_
    ⟨nofun, nofun, nofun⟩ (fun hL => hL.fdrop (by simp) hr) id
    (fun h => Loans.ffull_dropFTemp h r) (fun hc => Loans.covers_dropFTemp hc (fun _ => hP) rfl) hf
  · intro hf
    have htr := hf.sound.tracks_sample (D := Cell.anyCell) (k := .double) (Nat.le_succ f.sp)
    obtain ⟨is, m', -, -, -, -, -, -, -, htr'⟩ :=
      pushDouble_ensures htr (by simp [size_sample])
      (r := r) (freg_sample (Nat.lt_trans hlt (by decide))) (Value.same_refl _) #[] _ _
      (hrun #[])
    exact htr'.sound

theorem noteTypes_settles (s : Slot) (types : TypeSet) :
    Settles D (update (·.update s fun e => { e with types })) f L P fun _ f' L' =>
      L' = L ∧ f'.sp = f.sp :=
  settles_update (fun hf => hf.noteTypes s types) id ⟨rfl, rfl, Nat.le_refl _, rfl, rfl⟩ ⟨rfl, rfl⟩

/-- Two temporaries become a value of unknown type. -/
theorem pushRegs_settles {rt rp : Reg} (hne : rt ≠ rp) (ht : rt ∈ L.temps) (hp : rp ∈ L.temps)
    (hPt : P.reg rt) (hPp : P.reg rp) :
    Settles D (pushRegs rt rp types) f L P fun s f' L' =>
      s = f.sp ∧ L' = (L.dropTemp rt).dropTemp rp ∧ f'.sp = f.sp + 1 := by
  by_cases hsome : types.knownType.tag?.isSome
  · have hrun : pushRegs rt rp types = (do
        free rt
        let slot ← pushTyped types.knownType rp
        update (·.update slot fun e => { e with types })
        return slot) := by
      rw [pushRegs, if_pos hsome]
    have hp' : rp ∈ (L.dropTemp rt).temps := by simp [Loans.dropTemp, hp, hne.symm]
    rw [hrun]
    refine settles_bind ((free_settles ht).mono ?_)
    rintro - f₁ L₁ ⟨rfl, hv⟩
    refine settles_bind ((pushTyped_settles hsome hp' hPp).mono ?_)
    rintro s f₂ L₂ ⟨rfl, rfl, hsp⟩
    refine settles_bind ((noteTypes_settles f₁.sp types).mono ?_)
    rintro - f₃ L₃ ⟨rfl, hsp'⟩
    refine settles_pure ⟨hv.sp, rfl, ?_⟩
    rw [hsp', hsp, hv.sp]
  · intro hf
    have htemp := (hf.lends.temp rt).2 ht
    have htemp' := (hf.lends.temp rp).2 hp
    have hlt := lt_of_binding htemp rfl
    have hlt' := lt_of_binding htemp' rfl
    have hrun : ∀ code, pushRegs rt rp types ⟨f, code⟩ = .ok f.sp
        ⟨{ f.push { unsynced .unknown types with data := .reg rp, tag := some rt } with
          regs := (f.regs.bind rp (.data f.sp)).bind rt (.tag f.sp) }, code⟩ := by
      intro code
      rw [pushRegs, if_neg hsome]
      simp only [bind_run, frame_run, htemp, htemp', if_true]
      rfl
    have ht' : rt ∈ (L.dropTemp rp).temps := by simp [Loans.dropTemp, ht, hne]
    rw [Loans.dropTemp_comm L rt rp]
    refine settles_push _ hrun ?_ (by constructor <;> simp [unsynced])
      (fun hL => (hL.drop (by simp) hp).drop (by simp) ht')
      (fun h => Loans.full_dropTemp (Loans.full_dropTemp h rp) rt) id ?_ hf
    · intro hf
      -- any value of the right type will do
      have htr := (hf.sound.tracks_sample (D := Cell.anyCell) (k := types.knownType)
          (Nat.le_succ f.sp)).setReg
        (r := rt) types.knownType.sample.tag.word (by simp [htemp, Binding.slot?])
      obtain ⟨is, m', -, -, -, -, -, -, -, htr'⟩ := pushRegs_ensures htr
        (by simp [size_sample, Machine.setReg]) (c := ⟨types.knownType.sample.tag.word, 0⟩)
        (v := types.knownType.sample) hne (by simp [hlt])
        (by simp [hne, reg_sample hlt', htemp']) (KnownType.reads_sample _)
        (fun _ => KnownType.tag_sample _) #[] _ _ (hrun #[])
      exact htr'.sound
    · intro hc
      have hc' : P.Covers ((L.dropTemp rp).shape (f.mapRegs (·.bind rp (.data f.sp)))) :=
        Loans.covers_dropTemp hc (fun _ => hPp) rfl
      exact Loans.covers_dropTemp hc' (fun _ => hPt) rfl

/-- Pushing what has been read. The tag is left out where the type implies it. -/
theorem pushRead_settles {tag : Option Reg} {payload : Reg}
    (hne : ∀ r, tag = some r → r ≠ payload ∧ r ∈ L.temps ∧ P.reg r)
    (hnone : tag = none → types.knownType.tag?.isSome) (hp : payload ∈ L.temps)
    (hP : P.reg payload) :
    Settles D (CompileM.pushRead tag payload types) f L P fun _ f' L' =>
      L' = (L.dropTemp? tag).dropTemp payload ∧ f'.sp = f.sp + 1 := by
  cases tag with
  | some r =>
    obtain ⟨hr, hmem, hPr⟩ := hne r rfl
    refine settles_bind ((pushRegs_settles hr hmem hp hPr hP).mono ?_)
    rintro s f₁ L₁ ⟨rfl, rfl, hsp⟩
    exact settles_pure ⟨by rw [Loans.dropTemp?_some], hsp⟩
  | none =>
    refine settles_bind ((pushTyped_settles (hnone rfl) hp hP).mono ?_)
    rintro s f₁ L₁ ⟨rfl, rfl, hsp⟩
    refine (noteTypes_settles (f₁.backing f.sp) types).mono ?_
    rintro - f₂ L₂ ⟨rfl, hsp'⟩
    exact ⟨by rw [Loans.dropTemp?_none], hsp'.trans hsp⟩

/-! ### Changing the stack -/

/-- Two changes in a row. -/
theorem settles_update_comp {h : Frame → Frame}
    (hg : Settles D (update g) f L P fun _ f' L' => f' = g f ∧ L' = L)
    (hh : Settles D (update h) (g f) L P fun _ f' L' => f' = h (g f) ∧ L' = L) :
    Settles D (update fun f => h (g f)) f L P fun _ f' L' => f' = h (g f) ∧ L' = L := by
  refine settles_bind (x := update g) (k := fun _ => update h) (hg.mono ?_)
  rintro - f' L' ⟨rfl, rfl⟩
  exact hh

theorem popN_settles {n : Nat} (hn : f.stackBase + n ≤ f.sp) :
    Settles D (update (popN n)) f L P fun _ f' L' => f' = popN n f ∧ L' = L :=
  fun hf hP => settles_update (fun hf => hf.popN hn)
    (fun hP => Loans.covers_of_bound hP (bound_covers_popN n f)
      (fun _ hr => hP.reg _ (Loans.shape_pin f hr)) (fun _ hr => hP.freg _ (Loans.shape_fpin f hr))
      (List.Subset.refl _) (List.Subset.refl _))
    (continues_popN n f) ⟨rfl, rfl⟩ hf hP

theorem pop_settles (hn : f.stackBase < f.sp) :
    Settles D (update pop) f L P fun _ f' L' => f' = f.pop ∧ L' = L :=
  popN_settles (n := 1) hn

/-- A push that takes no register. -/
theorem settles_pushes (hf : f.Ready D L → (g f).Ready D L) (hb : (g f).bound = f.bound)
    (hcont : f.Continues (g f)) : Settles D (update g) f L P fun _ f' L' => f' = g f ∧ L' = L :=
  settles_update hf (fun hP => by rw [Loans.shape, hb]; exact hP) hcont ⟨rfl, rfl⟩

theorem pushConstant_settles {v : Value} (hv : v.tag ≠ .object) :
    Settles D (update (·.pushConstant v)) f L P fun _ f' L' => f' = f.pushConstant v ∧ L' = L :=
  settles_pushes (fun hf => hf.pushConstant hv) rfl ⟨rfl, rfl, Nat.le_max_left _ _, rfl, rfl⟩

theorem pushSynced_settles (types : TypeSet) :
    Settles D (update (·.pushSynced types)) f L P fun _ f' L' =>
      f' = f.pushSynced types ∧ L' = L :=
  settles_pushes (fun hf => hf.pushSynced types) rfl ⟨rfl, rfl, Nat.le_max_left _ _, rfl, rfl⟩

theorem pushCopy_settles {s : Slot} (hg : g f = f.pushCopy s) (hs : s < f.sp) :
    Settles D (update g) f L P fun _ f' L' => f' = f.pushCopy s ∧ L' = L :=
  hg ▸ settles_pushes (fun hf => hg ▸ hf.pushCopy hs) (hg ▸ bound_pushCopy f s)
    (hg ▸ continues_pushCopy f s)

/-! ### Loading and pinning -/

/-- An operation that emits nothing, as one that loads. -/
theorem Settles.delivers (h : Settles D x f L (L.shape f) Q) (hf : f.Ready D L) :
    Delivers D x f L Q := by
  intro code
  obtain ⟨a, f', L', hx, hf', hP, hcont, hq⟩ := h hf (.refl _) code
  exact ⟨a, ⟨f', code⟩, [], L', hx, by simp, .nil hP, hf', hcont, hq⟩

theorem pin_delivers (hf : f.Ready D L) (hr : f.bound.reg r) :
    Delivers D (CompileM.pin r) f L fun pins f' L' => L' = L.addPins pins ∧
      (pins = [] ∨ pins = [r]) ∧ r ∈ L'.pins ∧ f.SameView f' := by
  have hlt : r.Valid := lt_of_binding_ne_free (f := f.regs) fun hfree => by
    simp [bound, hfree, Binding.slot?] at hr
  exact (pin_settles (Or.inl hr) hlt).delivers hf

end FrameM

end FastPath
