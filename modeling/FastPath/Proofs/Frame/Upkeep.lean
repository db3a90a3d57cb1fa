import FastPath.Proofs.Frame.Progress
import FastPath.Proofs.Frame.Refinement

/-!
# What an operation leaves behind

An operation of the tracker may stop in the middle, and what it did before stays done. So
that entries and register file agree at any time, they have to agree wherever an operation
can fail. `FrameM.Leaves` follows both ways out of an operation: a postcondition where it
succeeds, and a coherent frame where it does not.

Along the way a second property is followed, of one entry at a time: a payload that is said
to be in memory is there. Only the slot that is being overwritten is an exception.

## Main results

* `FrameM.leaves_bind` and its companions: one rule for each way to build an operation.
* `FrameM.store_leaves`, `FrameM.swap_leaves`: moving values between slots.
-/

namespace FastPath

open Frame Entry

/-- A payload that the entry has in memory is there. -/
def Entry.Backed (e : Entry) : Prop := e.role = .own → e.data = .memory → e.dataSynced

namespace Frame

/-- Entries and register file agree, and the stack pointer is not below the operand stack. -/
structure Coherent (f : Frame) : Prop where
  sound : f.Sound none
  base : f.stackBase ≤ f.sp

/-- The payloads that live slots have in memory are there. -/
def Backed (f : Frame) (dead : Option Slot) : Prop := ∀ s, f.Live dead s → (f.entry s).Backed

/-- No payload has been lost, whichever slot is being overwritten. -/
def Upholds (f f' : Frame) : Prop := ∀ dead, f.Backed dead → f'.Backed dead

variable {f f' : Frame} {dead : Option Slot} {m m' : Machine} {env : Slot → Value}

theorem Upholds.refl (f : Frame) : f.Upholds f := fun _ h => h

variable {f₁ f₂ f₃ : Frame} {e : Entry}

theorem Upholds.trans (h : f₁.Upholds f₂) (h' : f₂.Upholds f₃) : f₁.Upholds f₃ :=
  fun dead hf => h' dead (h dead hf)

theorem Upholds.mapRegs (f : Frame) (g : RegisterFile → RegisterFile) : f.Upholds (f.mapRegs g) :=
  fun _ h => h

theorem upholds_update (s : Slot) {g : Entry → Entry} (hg : ∀ e, e.Backed → (g e).Backed) :
    f.Upholds (f.update s g) := by
  intro dead h s' hl
  rw [entry_update]
  split
  · exact hg _ (h s' hl)
  · exact h s' hl

theorem upholds_setEntry (s : Slot) (he : e.Backed) : f.Upholds (f.setEntry s e) :=
  upholds_update s fun _ _ => he

/-- A slot that is no longer being overwritten has to have its payload. -/
theorem Backed.revive {t : Slot} (h : f.Backed (some t)) (ht : (f.entry t).Backed) :
    f.Backed none := by
  intro s hl
  by_cases hs : s = t
  · exact hs ▸ ht
  · exact h s ⟨hl.1, by simpa using Ne.symm hs⟩

theorem Backed.setEntry {t : Slot} (h : f.Backed (some t)) (ht : t < f.entries.size)
    (he : e.Backed) :
    (f.setEntry t e).Backed none := by
  refine Backed.revive (upholds_setEntry t he _ h) ?_
  rw [entry_setEntry, if_pos ⟨rfl, ht⟩]
  exact he

theorem Backed.push (h : f.Backed none) (hsp : f.sp ≤ f.entries.size) (he : e.Backed) :
    (f.push e).Backed none := by
  intro s hl
  rw [entry_push f e s hsp]
  split
  · exact he
  · next hs => exact h s ⟨by have := hl.1; rw [sp_push] at this; lia, by simp⟩

theorem Backed.release (h : f.Backed none) (t : Slot) : (f.release t).Backed (some t) := by
  intro s hl
  have hs : t ≠ s := fun he => hl.2 (he ▸ rfl)
  rw [entry_release, if_neg fun hc => hs hc.1]
  exact h s ⟨hl.1, by simp⟩

theorem Backed.pop (h : f.Backed none) : f.pop.Backed none := by
  intro s hl
  have hlt : s < f.sp - 1 := hl.1
  have hs : f.peek 1 ≠ s := by
    unfold peek
    lia
  have hent : f.pop.entry s = f.entry s := by
    refine (entry_release (f := f) (f.peek 1) s).trans (if_neg fun hc => hs hc.1)
  rw [hent]
  exact h s ⟨by lia, by simp⟩

theorem Backed.popN (h : f.Backed none) (n : Nat) : (popN n f).Backed none := by
  induction n generalizing f with
  | zero => exact h
  | succ n ih => exact ih h.pop

theorem Backed.redirect (h : f.Backed dead) {cs : List Slot} {b : Slot}
    (hcs : ∀ s ∈ cs, s < f.entries.size) : (f.redirect cs b).Backed dead := by
  intro s hl
  have hl' : f.Live dead s := by
    have hsp := (redirect_fields cs b f).2.2.1
    exact ⟨hsp ▸ hl.1, hl.2⟩
  rw [entry_redirect hcs]
  split
  · exact nofun
  · exact h s hl'

theorem backed_of_inMemory (types : Slot → TypeSet)
    (hent : ∀ s, s < f.sp → f.entry s = .inMemory (types s)) : f.Backed dead := by
  intro s hl
  rw [hent s hl.1]
  exact fun _ _ => rfl

/-! ### Coherent frames -/

theorem Coherent.mapRegs (h : f.Coherent) {g : RegisterFile → RegisterFile}
    (hb : ∀ r, (g f.regs).binding r = f.regs.binding r)
    (hfb : ∀ r, (g f.regs).fbinding r = f.regs.fbinding r) : (f.mapRegs g).Coherent :=
  ⟨h.sound.mapRegs hb hfb, h.base⟩

theorem Coherent.pin (h : f.Coherent) (r : Reg) (p : Bool) :
    (f.mapRegs (·.setPinned r p)).Coherent :=
  h.mapRegs (fun _ => by simp) fun _ => by simp

theorem Coherent.fpin (h : f.Coherent) (r : FReg) (p : Bool) :
    (f.mapRegs (·.setFPinned r p)).Coherent :=
  h.mapRegs (fun _ => by simp) fun _ => by simp

/-- A coherent frame describes a machine, with memory for another slot. -/
theorem Coherent.tracks (h : f.Coherent) (k : KnownType) :
    f.Tracks none (f.sample k (f.sp + 1)) (f.sampleValue k) :=
  h.sound.tracks_sample (Nat.le_succ _)

theorem Coherent.backing_lt (h : f.Coherent) {s : Slot} (hs : s < f.sp) :
    f.backing s < f.sp :=
  ((h.tracks .int32).backing ⟨hs, by simp⟩).1.1

theorem SameExtent.stackBase (h : f.SameExtent f') : f'.stackBase = f.stackBase := by
  simp only [Frame.stackBase, h.argCount, h.localCount]

theorem Coherent.of_extent (h : f.Coherent) (hs : f'.Sound none) (he : f.SameExtent f') :
    f'.Coherent :=
  ⟨hs, by rw [he.stackBase, he.sp]; exact h.base⟩

theorem Coherent.popN {n : Nat} (h : f.Coherent) (hn : f.stackBase + n ≤ f.sp) :
    (popN n f).Coherent := by
  have hle : n ≤ f.sp := Nat.le_trans (Nat.le_add_left ..) hn
  refine ⟨((h.tracks .int32).popN hle).sound, ?_⟩
  rw [(continues_popN n f).stackBase, sp_popN]
  exact Nat.le_sub_of_add_le hn

theorem Coherent.pushCopy (h : f.Coherent) {s : Slot} (hs : s < f.sp) :
    (f.pushCopy s).Coherent := by
  refine ⟨((h.tracks .int32).pushCopy hs ?_).sound, ?_⟩
  · rw [size_sample]
    exact Nat.lt_succ_self _
  · rw [(continues_pushCopy f s).stackBase, sp_pushCopy]
    exact Nat.le_succ_of_le h.base

theorem Backed.pushCopy (h : f.Backed none) (hsp : f.sp ≤ f.entries.size) (s : Slot) :
    (f.pushCopy s).Backed none := by
  unfold Frame.pushCopy
  split
  · exact h.push hsp nofun
  · exact h.push hsp nofun

/-- The new frame is coherent, says the same about every slot and has lost no payload. -/
structure Passes (f f' : Frame) : Prop where
  coherent : f'.Coherent
  view : f.SameView f'
  upholds : f.Upholds f'

theorem Passes.refl (h : f.Coherent) : f.Passes f := ⟨h, .refl f, .refl f⟩

theorem Passes.trans (h : f₁.Passes f₂) (h' : f₂.Passes f₃) : f₁.Passes f₃ :=
  ⟨h'.coherent, h.view.trans h'.view, h.upholds.trans h'.upholds⟩

theorem Passes.mapRegs (h : f.Passes f') {g : RegisterFile → RegisterFile}
    (hg : (f'.mapRegs g).Coherent) : f.Passes (f'.mapRegs g) :=
  ⟨hg, h.view.trans (.mapRegs f' _), h.upholds.trans (.mapRegs f' _)⟩

theorem Passes.pin (h : f.Passes f') (r : Reg) (p : Bool) :
    f.Passes (f'.mapRegs (·.setPinned r p)) :=
  h.mapRegs (h.coherent.pin r p)

theorem Passes.fpin (h : f.Passes f') (r : FReg) (p : Bool) :
    f.Passes (f'.mapRegs (·.setFPinned r p)) :=
  h.mapRegs (h.coherent.fpin r p)

theorem Loads.passes (h : f.Loads none m env f' m') (hc : f.Coherent) (hu : f.Upholds f') :
    f.Passes f' :=
  ⟨hc.of_extent h.tracks.sound h.view.sameExtent, h.view, hu⟩

end Frame

namespace FrameM

variable {α β : Type} {f : Frame} {m : Machine} {env : Slot → Value}

/-! ### Two ways out -/

/-- If the operation succeeds, its result and the new frame satisfy the postcondition; if it
fails, it leaves a coherent frame. -/
def Leaves (x : FrameM α) (f : Frame) (Q : α → Frame → Prop) : Prop :=
  ∀ code, match x ⟨f, code⟩ with
    | .ok a s => Q a s.frame
    | .error _ s => s.frame.Coherent

variable {x : FrameM α} {Q : α → Frame → Prop} {P : α → Frame → Machine → Prop}

theorem Leaves.mono {Q' : α → Frame → Prop} (h : Leaves x f Q) (hQ : ∀ a f', Q a f' → Q' a f') :
    Leaves x f Q' := by
  intro code
  have hx := h code
  split at hx
  · exact hQ _ _ hx
  · exact hx

/-- What an operation ensures on some machine may be added to its postcondition. -/
theorem Leaves.and (h : Leaves x f Q) (hP : Ensures x f m P) :
    Leaves x f fun a f' => Q a f' ∧ ∃ m', P a f' m' := by
  intro code
  have hx := h code
  split at hx
  · next a s heq =>
    obtain ⟨-, m', -, -, hp⟩ := hP code a s heq
    exact ⟨hx, m', hp⟩
  · exact hx

theorem leaves_pure {a : α} (h : Q a f) : Leaves (pure a) f Q :=
  fun _ => h

theorem leaves_bind {k : α → FrameM β} {Q : β → Frame → Prop}
    (h : Leaves x f fun a f' => Leaves (k a) f' Q) : Leaves (x >>= k) f Q := by
  intro code
  rw [bind_run]
  have hx := h code
  cases heq : x ⟨f, code⟩ with
  | ok a s =>
    rw [heq] at hx
    exact hx s.code
  | error e s =>
    rw [heq] at hx
    exact hx

theorem leaves_frame {Q : Frame → Frame → Prop} (h : Q f f) : Leaves frame f Q := fun _ => h

theorem leaves_update {g : Frame → Frame} {Q : Unit → Frame → Prop} (h : Q () (g f)) :
    Leaves (update g) f Q :=
  fun _ => h

theorem leaves_updateRegs {g : RegisterFile → RegisterFile} {Q : Unit → Frame → Prop}
    (h : Q () (f.mapRegs g)) : Leaves (updateRegs g) f Q :=
  fun _ => h

theorem leaves_look {k : Frame → FrameM β} {Q : β → Frame → Prop} (h : Leaves (k f) f Q) :
    Leaves (frame >>= k) f Q :=
  leaves_bind (leaves_frame h)

theorem leaves_regs {g : RegisterFile → RegisterFile} {k : Unit → FrameM β}
    {Q : β → Frame → Prop} (h : Leaves (k ()) (f.mapRegs g) Q) : Leaves (updateRegs g >>= k) f Q :=
  leaves_bind (leaves_updateRegs h)

theorem leaves_emit {i : Inst} {Q : Unit → Frame → Prop} (h : Q () f) : Leaves (emit i) f Q :=
  fun _ => h

theorem leaves_emitAll {is : List Inst} {Q : Unit → Frame → Prop} (h : Q () f) :
    Leaves (emitAll is) f Q :=
  fun _ => h

theorem leaves_throw {e : CompileError} (h : f.Coherent) : Leaves (throw e) f Q :=
  fun _ => h

theorem leaves_fail {v : Violation} (h : f.Coherent) : Leaves (fail v) f Q :=
  fun _ => h

/-- An operation that passes on the frame with a mark set passes on the frame, and the mark is taken
back on both ways out. -/
theorem marked_leaves {held : RegisterFile → Bool} {set clear : RegisterFile → RegisterFile}
    (hset : ∀ f : Frame, f.Coherent → (f.mapRegs set).Coherent)
    (hclear : ∀ f : Frame, f.Coherent → (f.mapRegs clear).Coherent) (h : f.Coherent)
    (hx : Leaves x (f.mapRegs set) fun _ f' => (f.mapRegs set).Passes f') :
    Leaves (marked held set clear x) f fun _ f' => f.Passes f' := by
  intro code
  have hx := hx code
  unfold marked
  split at hx
  · next a s heq =>
    have hp := ((Passes.refl h).mapRegs (hset f h)).trans hx
    simp only [heq]
    split
    · exact hp
    · exact hp.mapRegs (hclear _ hp.coherent)
  · next e s heq =>
    simp only [heq]
    split
    · exact hx
    · exact hclear _ hx

theorem withPinned_leaves {r : Reg} (h : f.Coherent)
    (hx : Leaves x (f.mapRegs (·.setPinned r true)) fun _ f' =>
      (f.mapRegs (·.setPinned r true)).Passes f') :
    Leaves (withPinned r x) f fun _ f' => f.Passes f' :=
  withPinned_eq x r ▸ marked_leaves (fun _ h => h.pin r true) (fun _ h => h.pin r false) h hx

/-! ### Allocation -/

theorem evictedTag_leaves (s : Slot) (t : Option Tag) (b : Bool) : Leaves (do
    match t, b with
    | some t, false =>
      emit (.storeTag s (.ofTag t))
      update (·.update s fun e => { e with tagSynced := true })
    | _, _ => pure ()
    update (·.update s fun e => { e with data := .memory, dataSynced := true })) f
      fun _ f' => f.Upholds f' := by
  have hlast : ∀ f₁ : Frame, f.Upholds f₁ →
      Leaves (update (·.update s fun e => { e with data := .memory, dataSynced := true })) f₁
        fun _ f' => f.Upholds f' :=
    fun f₁ hu => leaves_update (hu.trans (upholds_update s fun _ _ _ _ => rfl))
  split
  · refine leaves_bind (leaves_emit (leaves_bind (leaves_update ?_)))
    exact hlast _ (upholds_update s fun _ he => he)
  · exact leaves_bind (leaves_pure (hlast f (.refl f)))

theorem evictData_leaves (r : Reg) (s : Slot) :
    Leaves (evictData r s) f fun _ f' => f.Upholds f' := by
  unfold evictData
  apply leaves_look
  dsimp only
  split
  · exact leaves_bind (leaves_pure (evictedTag_leaves s _ _))
  · exact leaves_bind (leaves_emit (evictedTag_leaves s _ _))

theorem evictTag_leaves (r : Reg) (s : Slot) :
    Leaves (evictTag r s) f fun _ f' => f.Upholds f' := by
  have hlast : Leaves (update (·.update s fun e => { e with tag := none, tagSynced := true })) f
      fun _ f' => f.Upholds f' :=
    leaves_update (upholds_update s fun _ he => he)
  unfold evictTag
  apply leaves_look
  split
  · exact leaves_bind (leaves_pure hlast)
  · exact leaves_bind (leaves_emit hlast)

theorem evict_leaves (r : Reg) : Leaves (evict r) f fun _ f' => f.Upholds f' := by
  unfold evict
  apply leaves_look
  split
  · exact leaves_bind ((evictData_leaves r _).mono fun _ _ hu => leaves_update hu)
  · exact leaves_bind ((evictTag_leaves r _).mono fun _ _ hu => leaves_update hu)
  · exact leaves_pure (.refl f)
  · exact leaves_pure (.refl f)

/-- A double register is freed, whether that succeeds or not. -/
theorem evictDouble_leaves (r : FReg) : Leaves (evictDouble r) f fun _ f' => f.Upholds f' := by
  unfold evictDouble
  apply leaves_look
  split
  · next s _ =>
    have hlast : f.Upholds (f.update s fun e => { e with data := .memory }.synced) :=
      upholds_update s fun _ _ _ _ => rfl
    apply leaves_look
    have hfree : Leaves (update fun f =>
        ((f.update s fun e => { e with data := .memory }.synced).mapRegs
          (·.fbind r .free)).bumpGeneration) f fun _ f' => f.Upholds f' := leaves_update hlast
    split
    · exact leaves_bind (leaves_pure hfree)
    · exact leaves_bind (leaves_emit hfree)
  · exact leaves_pure (.refl f)

/-- An operation that only moves values passes if it loses no payload. -/
theorem Leaves.passes (h : f.Coherent) (hx : Leaves x f fun _ f' => f.Upholds f')
    (hP : Ensures x f m fun a f' m' => f.Loads none m env f' m' ∧ P a f' m') :
    Leaves x f fun _ f' => f.Passes f' := by
  refine (hx.and hP).mono ?_
  rintro a f' ⟨hu, m', hl, -⟩
  exact hl.passes h hu

theorem alloc_leaves (h : f.Coherent) : Leaves alloc f fun _ f' => f.Passes f' := by
  refine Leaves.passes h ?_ (alloc_ensures (h.tracks .int32))
  unfold alloc
  apply leaves_look
  split
  · exact leaves_regs (leaves_pure (.mapRegs f _))
  · split
    · exact leaves_throw h
    · refine leaves_bind ((evict_leaves _).mono fun _ f₁ hu => ?_)
      exact leaves_regs (leaves_pure (hu.trans (.mapRegs f₁ _)))

theorem allocDouble_leaves (h : f.Coherent) : Leaves allocDouble f fun _ f' => f.Passes f' := by
  refine Leaves.passes h ?_ (allocDouble_ensures (h.tracks .int32))
  unfold allocDouble
  apply leaves_look
  split
  · exact leaves_regs (leaves_pure (.mapRegs f _))
  · split
    · exact leaves_throw h
    · refine leaves_bind ((evictDouble_leaves _).mono fun _ f₁ hu => ?_)
      exact leaves_regs (leaves_pure (hu.trans (.mapRegs f₁ _)))

/-- A certain register is taken, whether that succeeds or not. -/
theorem take_leaves (h : f.Coherent) (r : Reg) : Leaves (take r) f fun _ f' => f.Upholds f' := by
  have hlast : ∀ f₁ : Frame, f.Upholds f₁ → Leaves (do
      updateRegs (·.bind r .temp)
      pure r) f₁ fun _ f' => f.Upholds f' :=
    fun f₁ hu => leaves_regs (leaves_pure (hu.trans (.mapRegs f₁ _)))
  unfold take
  apply leaves_look
  cases hpin : f.regs.isPinned r with
  | true =>
    split
    · exact leaves_fail h
    · simp only [if_true]
      exact leaves_bind (leaves_fail h)
  | false =>
    split
    · exact leaves_fail h
    · simp only [Bool.false_eq_true, if_false]
      split
      · exact leaves_bind ((evict_leaves r).mono fun _ => hlast)
      · exact hlast f (.refl f)

theorem free_leaves (h : f.Coherent) (r : Reg) :
    Leaves (free r) f fun _ f' => f'.Coherent ∧ f.Upholds f' := by
  refine Leaves.mono (Leaves.and (Q := fun _ f' => f.Upholds f') ?_
    (free_ensures (h.tracks .int32) (r := r))) ?_
  · unfold free
    apply leaves_look
    split
    · exact leaves_bind (leaves_pure (leaves_updateRegs (.mapRegs f _)))
    · exact leaves_bind (leaves_fail h)
  · rintro - f' ⟨hu, m', -, -, rfl, ht⟩
    exact ⟨⟨ht.sound, h.base⟩, hu⟩

theorem freeDouble_leaves (h : f.Coherent) (r : FReg) :
    Leaves (freeDouble r) f fun _ f' => f.Upholds f' := by
  unfold freeDouble
  apply leaves_look
  split
  · exact leaves_bind (leaves_pure (leaves_updateRegs (.mapRegs f _)))
  · exact leaves_bind (leaves_fail h)

/-! ### Loading -/

variable {s : Slot}

section

variable (h : f.Coherent)
include h

/-- A payload is loaded, whether that succeeds or not. -/
theorem dataReg_leaves (hs : s < f.sp) : Leaves (dataReg s) f fun _ f' => f.Passes f' := by
  refine Leaves.passes h ?_ (dataReg_ensures (h.tracks .int32) ⟨hs, by simp⟩)
  unfold dataReg
  apply leaves_look
  dsimp only
  split
  · exact leaves_bind (leaves_fail h)
  · split
    · exact leaves_regs (leaves_pure (.mapRegs f _))
    · exact leaves_fail h
    · refine leaves_bind ((alloc_leaves h).mono fun r f₁ hp => ?_)
      refine leaves_bind (leaves_emit (leaves_regs (leaves_bind ?_)))
      exact leaves_update (leaves_pure (hp.upholds.trans (upholds_update _ fun _ _ => nofun)))

/-- A tag is loaded, whether that succeeds or not. -/
theorem tagReg_leaves (hs : s < f.sp) : Leaves (tagReg s) f fun _ f' => f.Passes f' := by
  refine Leaves.passes h ?_ (tagReg_ensures (h.tracks .int32) ⟨hs, by simp⟩)
  unfold tagReg
  apply leaves_look
  dsimp only
  split
  · split
    · exact leaves_regs (leaves_pure (.mapRegs f _))
    · refine leaves_bind ((alloc_leaves h).mono fun r f₁ hp => ?_)
      refine leaves_bind (leaves_emit (leaves_regs (leaves_bind ?_)))
      exact leaves_update (leaves_pure (hp.upholds.trans (upholds_update _ fun _ he => he)))
  · exact leaves_bind (leaves_fail h)

/-- A number is loaded, whether that succeeds or not. -/
theorem doubleReg_leaves (hs : s < f.sp) : Leaves (doubleReg s) f fun _ f' => f.Passes f' := by
  refine Leaves.passes h ?_ (doubleReg_ensures (h.tracks .int32) ⟨hs, by simp⟩)
  unfold doubleReg
  apply leaves_look
  dsimp only
  split
  · exact leaves_bind (leaves_fail h)
  · split
    · exact leaves_regs (leaves_pure (.mapRegs f _))
    · exact leaves_fail h
    · refine leaves_bind ((allocDouble_leaves h).mono fun r f₁ hp => ?_)
      refine leaves_bind (leaves_emit (leaves_regs (leaves_bind ?_)))
      exact leaves_update (leaves_pure (hp.upholds.trans (upholds_update _ fun _ _ => nofun)))

theorem loadTemp_leaves (src : Operand) : Leaves (loadTemp src) f fun _ f' => f.Passes f' :=
  leaves_bind ((alloc_leaves h).mono fun _ _ hp => leaves_bind (leaves_emit (leaves_pure hp)))

theorem copyReg_leaves (src : Reg) : Leaves (copyReg src) f fun _ f' => f.Passes f' :=
  leaves_bind ((withPinned_leaves h (alloc_leaves (h.pin src true))).mono fun _ _ hp =>
    leaves_bind (leaves_emit (leaves_pure hp)))

theorem copyData_leaves (s : Slot) : Leaves (copyData s) f fun _ f' => f.Passes f' := by
  unfold copyData
  apply leaves_look
  dsimp only
  split
  · exact loadTemp_leaves h _
  · split
    · exact copyReg_leaves h _
    · exact loadTemp_leaves h _
    · exact leaves_fail h

theorem copyTag_leaves (s : Slot) : Leaves (copyTag s) f fun _ f' => f.Passes f' := by
  unfold copyTag
  apply leaves_look
  dsimp only
  split
  · exact loadTemp_leaves h _
  · exact loadTemp_leaves h _
  · exact copyReg_leaves h _
  · split
    · exact loadTemp_leaves h _
    · exact leaves_fail h

theorem syncEntry_leaves (hs : s < f.sp) : Leaves (syncEntry s) f fun _ f' => f.Passes f' := by
  refine Leaves.passes h ?_ (syncEntry_ensures (h.tracks .int32) ⟨hs, by simp⟩)
  refine leaves_look (leaves_bind (leaves_emitAll (leaves_update ?_)))
  exact upholds_update s fun _ _ _ _ => rfl

/-- A number is copied, whether that succeeds or not. -/
theorem copyNumber_leaves (hs : s < f.sp) : Leaves (copyNumber s) f fun _ f' => f.Passes f' := by
  have hb := h.backing_lt hs
  unfold copyNumber
  apply leaves_look
  dsimp only
  split
  · split
    · exact leaves_fail h
    · exact leaves_bind ((allocDouble_leaves h).mono fun _ _ hp =>
        leaves_bind (leaves_emit (leaves_pure hp)))
  · refine leaves_bind ((dataReg_leaves h hb).mono fun src f₁ hp₁ => ?_)
    have hc₁ := hp₁.coherent
    refine leaves_bind ((withPinned_leaves hc₁ (allocDouble_leaves (hc₁.pin src true))).mono ?_)
    exact fun _ _ hp => leaves_bind (leaves_emit (leaves_pure (hp₁.trans hp)))
  · rw [withDoublePinned_eq]
    refine leaves_bind ((marked_leaves (fun _ h => h.fpin _ true) (fun _ h => h.fpin _ false) h
      (allocDouble_leaves (h.fpin _ true))).mono ?_)
    exact fun _ _ hp => leaves_bind (leaves_emit (leaves_pure hp))
  · refine leaves_bind ((syncEntry_leaves h hb).mono fun _ f₁ hp₁ => ?_)
    refine leaves_bind ((allocDouble_leaves hp₁.coherent).mono ?_)
    exact fun _ _ hp => leaves_bind (leaves_emit (leaves_pure (hp₁.trans hp)))

/-- A value is loaded, whether that succeeds or not. -/
theorem source_leaves (hs : s < f.sp) : Leaves (source s) f fun _ f' => f.Passes f' := by
  have hb := h.backing_lt hs
  unfold source
  apply leaves_look
  dsimp only
  split
  · exact leaves_pure (.refl h)
  · exact leaves_bind ((doubleReg_leaves h hb).mono fun r _ hp =>
      leaves_regs (leaves_pure (hp.fpin r true)))
  · refine leaves_bind ((tagReg_leaves h hb).mono fun tag f₁ hp₁ => ?_)
    have hp₁' := hp₁.pin tag true
    refine leaves_regs (leaves_bind ?_)
    refine (dataReg_leaves hp₁'.coherent (hp₁'.view.sp ▸ hb)).mono fun r _ hp => ?_
    exact leaves_regs (leaves_pure ((hp₁'.trans hp).pin r true))
  · exact leaves_bind ((dataReg_leaves h hb).mono fun r _ hp =>
      leaves_regs (leaves_pure (hp.pin r true)))

theorem unpinSource_leaves (src : Source) : Leaves (unpinSource src) f fun _ f' => f.Passes f' := by
  have hp := Passes.refl h
  cases src with
  | constant c => exact leaves_pure hp
  | typed t r => exact leaves_updateRegs (hp.pin r false)
  | regs t r => exact leaves_regs (leaves_updateRegs ((hp.pin t false).pin r false))
  | double r => exact leaves_updateRegs (hp.fpin r false)

/-! ### Pushing -/

theorem pushTyped_leaves (t : KnownType) (r : Reg) :
    Leaves (pushTyped t r) f fun _ f' => f.Backed none → f'.Backed none := by
  unfold pushTyped push
  split
  · exact leaves_bind (leaves_fail h)
  · apply leaves_look
    split
    · refine leaves_bind (leaves_look (leaves_bind (leaves_update (leaves_pure ?_))))
      exact leaves_regs (leaves_pure fun hb => hb.push h.sound.sp_le nofun)
    · exact leaves_bind (leaves_fail h)

theorem pushDouble_leaves (r : FReg) :
    Leaves (pushDouble r) f fun _ f' => f.Backed none → f'.Backed none := by
  unfold pushDouble push
  apply leaves_look
  split
  · refine leaves_bind (leaves_look (leaves_bind (leaves_update (leaves_pure ?_))))
    exact leaves_regs (leaves_pure fun hb => hb.push h.sound.sp_le nofun)
  · exact leaves_bind (leaves_fail h)

/-- Two registers are pushed, whether that succeeds or not. -/
theorem pushRegs_leaves (tag payload : Reg) (types : TypeSet) :
    Leaves (pushRegs tag payload types) f fun _ f' => f.Backed none → f'.Backed none := by
  unfold pushRegs
  split
  · refine leaves_bind ((free_leaves h tag).mono fun _ f₁ hf => ?_)
    refine leaves_bind ((pushTyped_leaves hf.1 _ payload).mono fun s f₂ hb => ?_)
    refine leaves_bind (leaves_update (leaves_pure fun hb₀ => ?_))
    have hnote : f₂.Upholds (f₂.update s fun e => { e with types }) :=
      upholds_update s fun _ he => he
    exact hnote none (hb (hf.2 none hb₀))
  · unfold push
    apply leaves_look
    by_cases htag : f.regs.binding tag = .temp
    · simp only [htag, if_true]
      split
      · refine leaves_bind (leaves_look (leaves_bind (leaves_update (leaves_pure ?_))))
        refine leaves_regs (leaves_regs (leaves_pure ?_))
        exact fun hb => hb.push h.sound.sp_le nofun
      · exact leaves_bind (leaves_fail h)
    · simp only [htag, if_false]
      exact leaves_bind (leaves_fail h)

/-! ### Types -/

/-- A type is learnt, whether that succeeds or not. -/
theorem learnType_leaves (hs : s < f.sp) (t : KnownType) :
    Leaves (learnType s t) f fun _ f' => f'.Coherent ∧ f.Upholds f' := by
  have hl := live_of_lt hs
  have ht := h.tracks .int32
  unfold learnType
  split
  · exact leaves_bind (leaves_fail h)
  apply leaves_look
  dsimp only
  split
  · exact leaves_pure ⟨h, .refl f⟩
  · next hne =>
    have hc : (f.entry (f.backing s)).constant? = none := by
      rw [not_or, Option.not_isSome_iff_eq_none] at hne
      exact hne.1
    obtain ⟨hlb, -, hown⟩ := ht.own_backing hl hc
    split
    · exact leaves_fail h
    · next hnf =>
      refine leaves_update ⟨⟨h.sound.learn hlb hown hnf, h.base⟩, ?_⟩
      exact upholds_update _ fun _ he => he

/-! ### Copies that come to own their value -/

/-- A copy that comes to own its value, whether that succeeds or not. -/
theorem materialize_leaves (hs : s < f.sp) : Leaves (materialize s) f fun _ f' => f.Upholds f' := by
  have hset : ∀ (f₁ : Frame) (e : Entry), f.Upholds f₁ → e.Backed →
      Leaves (update fun f => (f.setEntry s e).bumpGeneration) f₁ fun _ f' => f.Upholds f' :=
    fun f₁ e hu he => leaves_update (hu.trans (upholds_setEntry s he))
  unfold materialize
  apply leaves_look
  split
  · exact leaves_pure (.refl f)
  next b hcopy =>
  have hb : b < f.sp := by
    have hrole : (f.entry s).role = .copyOf b := by
      unfold copyOf? at hcopy
      split at hcopy
      · next heq => exact heq.trans (by rw [Option.some.inj hcopy])
      · cases hcopy
    exact Nat.lt_trans (h.sound.copy s b ⟨hs, by simp⟩ hrole).1 hs
  dsimp only
  split
  · exact leaves_bind (leaves_pure (hset f _ (.refl f) fun _ _ => rfl))
  · split
    · refine leaves_bind ((copyNumber_leaves h hb).mono fun r f₁ hp => ?_)
      refine leaves_regs (leaves_bind (leaves_pure ?_))
      exact hset _ _ hp.upholds nofun
    · refine leaves_bind ((copyTag_leaves h b).mono fun tag f₁ hp₁ => ?_)
      have hc₁ := hp₁.coherent
      refine leaves_bind ((withPinned_leaves hc₁ (copyData_leaves (hc₁.pin tag true) b)).mono ?_)
      intro payload f₂ hp₂
      refine leaves_regs (leaves_bind (leaves_updateRegs
        (leaves_bind (leaves_pure ?_))))
      exact hset _ _ (hp₁.trans hp₂).upholds nofun
    · refine leaves_bind ((copyData_leaves h b).mono fun payload f₁ hp => ?_)
      refine leaves_regs (leaves_bind (leaves_pure ?_))
      exact hset _ _ hp.upholds nofun

theorem separate_leaves (lhs : Slot) {rhs : Slot} (hs : rhs < f.sp) :
    Leaves (separate lhs rhs) f fun _ f' => f.Upholds f' := by
  unfold separate
  apply leaves_look
  split
  · exact materialize_leaves h hs
  · exact leaves_pure (.refl f)

end

/-- A frame with the same slots that is coherent, and in which nothing copies `s`. -/
structure Uncopied (f : Frame) (s : Slot) (f' : Frame) : Prop where
  coherent : f'.Coherent
  extent : f.SameExtent f'
  none : ∀ s', s' < f'.sp → (f'.entry s').role ≠ .copyOf s
  upholds : f.Upholds f'

/-- Giving copies another owner, whether that succeeds or not. -/
theorem uncopy_leaves (h : f.Coherent) (s : Slot) :
    Leaves (uncopy s) f fun _ f' => Uncopied f s f' := by
  have hwalk : Leaves (uncopy s) f fun _ f' => f.Upholds f' := by
    unfold uncopy
    apply leaves_look
    split
    · exact leaves_pure (.refl f)
    · next first rest hcopies =>
      have hmem : ∀ c ∈ first :: rest, c < f.sp := fun c hc =>
        (mem_copiesOf.1 (hcopies ▸ hc : c ∈ f.copiesOf s)).1
      have hfirst := hmem first List.mem_cons_self
      have hm := (materialize_leaves h hfirst).and
        (materialize_ensures (h.tracks .int32) (s := first) ⟨hfirst, by simp⟩)
      refine leaves_bind (hm.mono ?_)
      rintro - f₁ ⟨hu, m₁, hsh⟩
      refine leaves_update (hu.trans fun dead hb => hb.redirect fun c hc => ?_)
      have hc := hmem c (List.mem_cons_of_mem first hc)
      exact Nat.lt_of_lt_of_le (hsh.sp ▸ hc) hsh.tracks.sound.sp_le
  refine (hwalk.and (uncopy_ensures (h.tracks .int32))).mono ?_
  rintro - f' ⟨hu, m', hsh, hnone⟩
  exact ⟨h.of_extent hsh.tracks.sound hsh.sameExtent, hsh.sameExtent, hnone, hu⟩

end FrameM

/-! ### Assignment -/

namespace Frame

variable {f : Frame} {t : Slot}

/-- A slot that is being overwritten may count as live while it has no registers. -/
theorem Sound.revive (h : f.Sound (some t)) (hdata : (f.entry t).data = .memory)
    (htag : (f.entry t).tag = none)
    (hcopy : ∀ b, (f.entry t).role = .copyOf b → b < t ∧ (f.entry b).role = .own)
    (hconst : ∀ v, (f.entry t).role = .constant v → (f.entry t).type = .ofValue v) :
    f.Sound none := by
  have hlive : ∀ s, f.Live none s → s ≠ t → f.Live (some t) s :=
    fun s hl hne => ⟨hl.1, by simpa using Ne.symm hne⟩
  have hback : ∀ s, f.Live (some t) s → f.Live none s := fun s hl => ⟨hl.1, by simp⟩
  have hiff : ∀ {q : Entry → Prop}, ¬q (f.entry t) → ∀ s,
      f.Live (some t) s ∧ q (f.entry s) ↔ f.Live none s ∧ q (f.entry s) := by
    intro q hq s
    refine ⟨fun hl => ⟨hback s hl.1, hl.2⟩, fun hl => ⟨hlive s hl.1 ?_, hl.2⟩⟩
    rintro rfl
    exact hq hl.2
  refine ⟨h.sp_le, ?_, ?_, ?_, ?_, ?_, ?_, ?_, ?_, h.ftag⟩
  · intro s b hl hrole
    by_cases hs : s = t
    · subst hs
      exact ⟨(hcopy b hrole).1, by simp, (hcopy b hrole).2⟩
    · obtain ⟨hlt, -, ho⟩ := h.copy s b (hlive s hl hs) hrole
      exact ⟨hlt, by simp, ho⟩
  · intro s hl hrole
    by_cases hs : s = t
    · exact hs ▸ ⟨hdata, htag⟩
    · exact h.bare s (hlive s hl hs) hrole
  · intro s v hl hrole
    by_cases hs : s = t
    · exact hs ▸ hconst v (hs ▸ hrole)
    · exact h.constant s v (hlive s hl hs) hrole
  · intro s r hl hr
    by_cases hs : s = t
    · rw [hs, hdata] at hr
      cases hr
    · exact h.freg_type s r (hlive s hl hs) hr
  · intro s r hl hr
    by_cases hs : s = t
    · rw [hs, htag] at hr
      cases hr
    · exact h.tag_type s r (hlive s hl hs) hr
  · intro s r
    exact (h.data_iff s r).trans (hiff (q := (·.data = .reg r)) (by simp [hdata]) s)
  · intro s r
    exact (h.tag_iff s r).trans (hiff (q := (·.tag = some r)) (by simp [htag]) s)
  · intro s r
    exact (h.fdata_iff s r).trans (hiff (q := (·.data = .freg r)) (by simp [hdata]) s)

/-- Freeing the registers of a slot that nothing copies leaves a coherent frame. -/
theorem Coherent.release (h : f.Coherent) (ht : t < f.sp)
    (hnone : ∀ s, s < f.sp → (f.entry s).role ≠ .copyOf t) :
    (f.release t).bumpGeneration.Coherent := by
  have hl := live_of_lt ht
  have htr := ((h.tracks .int32).release ht hnone).bumpGeneration
  have hself : (f.release t).entry t = (f.entry t).withoutRegs := by
    rw [entry_release, if_pos ⟨rfl, Nat.lt_of_lt_of_le ht h.sound.sp_le⟩]
  refine ⟨htr.sound.revive ?_ ?_ ?_ ?_, h.base⟩
  · rw [entry_bumpGeneration, hself]
    rfl
  · rw [entry_bumpGeneration, hself]
    rfl
  · intro b hrole
    rw [entry_bumpGeneration, hself] at hrole
    obtain ⟨hlt, -, ho⟩ := h.sound.copy t b hl hrole
    refine ⟨hlt, ?_⟩
    rw [entry_bumpGeneration, entry_release, if_neg fun hc => Nat.ne_of_lt hlt hc.1.symm]
    exact ho
  · intro v hrole
    rw [entry_bumpGeneration, hself] at hrole ⊢
    exact h.sound.constant t v hl hrole

end Frame

namespace FrameM

variable {f : Frame} {s t : Slot}

/-- A transfer backs the slot that was dead. -/
theorem transfer_leaves (h : f.Coherent) (hs : s < f.sp) :
    Leaves (transfer s t) f fun _ f' => f.Backed (some t) → f'.Backed none := by
  unfold transfer
  split
  · exact leaves_bind (leaves_fail h)
  next hlt =>
  have ht : t < s := Nat.lt_of_not_le hlt
  -- the new owner has its payload in a register
  have hfinish : ∀ (f₁ f₂ : Frame) (e : Entry), f.Passes f₁ → f₂.entries = f₁.entries →
      f₂.sp = f₁.sp → e.Backed → Leaves (update fun f =>
        let synced := f.isSynced s
        let copies := f.copiesOf s
        let copy := { copy t with dataSynced := synced, tagSynced := synced }
        let f := (f.setEntry t e).setEntry s copy
        (copies.foldl (fun f s => f.update s fun e => { e with role := .copyOf t })
          f).bumpGeneration) f₂ fun _ f' => f.Backed (some t) → f'.Backed none := by
    intro f₁ f₂ e hp hent hsp he
    refine leaves_update fun hb => ?_
    have hle : f₂.sp ≤ f₂.entries.size := by
      rw [hent, hsp]
      exact hp.coherent.sound.sp_le
    have hlt : t < f₂.entries.size :=
      Nat.lt_of_lt_of_le (Nat.lt_trans ht (by rw [hsp, hp.view.sp]; exact hs)) hle
    have hb₂ : f₂.Backed (some t) := by
      intro s' hl
      rw [show f₂.entry s' = f₁.entry s' by simp only [entry, hent]]
      exact hp.upholds _ hb s' ⟨hsp ▸ hl.1, hl.2⟩
    have hb₃ := upholds_setEntry s (e := { copy t with
      dataSynced := f₂.isSynced s, tagSynced := f₂.isSynced s }) (by rintro ⟨⟩) _
      (hb₂.setEntry hlt he)
    refine hb₃.redirect fun c hc => ?_
    rw [size_setEntry, size_setEntry]
    exact Nat.lt_of_lt_of_le (mem_copiesOf.1 hc).1 hle
  simp only [pure_bind]
  apply leaves_look
  split
  · refine leaves_bind ((doubleReg_leaves h hs).mono fun r f₁ hp => ?_)
    exact leaves_regs (hfinish f₁ _ _ hp rfl rfl (by rintro - ⟨⟩))
  · refine leaves_bind ((tagReg_leaves h hs).mono fun tag f₁ hp₁ => ?_)
    have hc₁ := hp₁.coherent
    have hs₁ : s < f₁.sp := hp₁.view.sp ▸ hs
    refine leaves_bind ((withPinned_leaves hc₁ (dataReg_leaves (hc₁.pin tag true) hs₁)).mono ?_)
    intro payload f₂ hp₂
    refine leaves_regs (leaves_regs ?_)
    exact hfinish f₂ _ _ (hp₁.trans hp₂) rfl rfl (by rintro - ⟨⟩)
  · refine leaves_bind ((dataReg_leaves h hs).mono fun r f₁ hp => ?_)
    exact leaves_regs (hfinish f₁ _ _ hp rfl rfl (by rintro - ⟨⟩))

/-- What an assignment leaves: a coherent frame with the same slots and every payload. -/
structure Assigned (f f' : Frame) : Prop where
  coherent : f'.Coherent
  extent : f.SameExtent f'
  backed : f.Backed none → f'.Backed none

/-- An assignment, whether it succeeds or not. -/
theorem store_leaves (h : f.Coherent) (hs : s < f.sp) :
    Leaves (store t s) f fun _ f' => Assigned f f' := by
  have hwalk : Leaves (store t s) f fun _ f' => f.Backed none → f'.Backed none := by
    unfold store
    apply leaves_look
    split
    · exact leaves_pure id
    split
    · exact leaves_bind (leaves_fail h)
    next hle =>
    have ht : t < s := Nat.lt_of_not_le hle
    refine leaves_bind ((uncopy_leaves h t).mono fun _ f₁ hu => ?_)
    have hs₁ : s < f₁.sp := hu.extent.sp ▸ hs
    have ht₁ : t < f₁.sp := Nat.lt_trans ht hs₁
    have hc : (f₁.release t).bumpGeneration.Coherent := hu.coherent.release ht₁ hu.none
    have hb : f.Backed none → (f₁.release t).bumpGeneration.Backed (some t) :=
      fun hb => (hu.upholds none hb).release t
    have hs₂ : s < (f₁.release t).bumpGeneration.sp := hs₁
    refine leaves_bind (leaves_update (leaves_look ?_))
    generalize (f₁.release t).bumpGeneration = f₂ at hc hb hs₂
    have ht₂ : t < f₂.entries.size :=
      Nat.lt_of_lt_of_le (Nat.lt_trans ht hs₂) hc.sound.sp_le
    dsimp only
    split
    · exact leaves_update fun hb₀ => (hb hb₀).setEntry ht₂ nofun
    · split
      · exact leaves_update fun hb₀ => (hb hb₀).setEntry ht₂ nofun
      · exact (transfer_leaves hc (hc.backing_lt hs₂)).mono fun _ _ hr hb₀ => hr (hb hb₀)
  refine (hwalk.and (store_ensures (h.tracks .int32) hs)).mono ?_
  rintro - f' ⟨hb, m', ht, -, he⟩
  exact ⟨h.of_extent ht.sound he, he, hb⟩

/-- A variable is assigned, whether that succeeds or not. -/
theorem storeVar_leaves (h : f.Coherent) (hs : 0 < f.sp) (v : Bytecode.Var) (popped : Bool)
    (hpop : popped → f.stackBase < f.sp) :
    Leaves (storeVar v popped) f fun _ f' => f'.Coherent ∧ (f.Backed none → f'.Backed none) := by
  unfold storeVar
  apply leaves_look
  refine leaves_bind ((store_leaves h (Nat.sub_lt hs Nat.one_pos)).mono fun _ f₁ ha => ?_)
  cases popped with
  | false => exact leaves_pure ⟨ha.coherent, ha.backed⟩
  | true =>
    have hs₁ : 0 < f₁.sp := ha.extent.sp ▸ hs
    have hbase : f₁.stackBase < f₁.sp := by
      rw [ha.extent.stackBase, ha.extent.sp]
      exact hpop rfl
    refine leaves_update ⟨⟨((ha.coherent.tracks .int32).pop hs₁).sound, ?_⟩,
      fun hb => (ha.backed hb).pop⟩
    exact Nat.le_sub_one_of_lt hbase

theorem shimmy_leaves {n : Nat} (h : f.Coherent) (hs : 0 < f.sp) (hn : f.stackBase + n ≤ f.sp) :
    Leaves (shimmy n) f fun _ f' => f'.Coherent ∧ (f.Backed none → f'.Backed none) := by
  unfold shimmy
  apply leaves_look
  refine leaves_bind ((store_leaves h (Nat.sub_lt hs Nat.one_pos)).mono fun _ f₁ ha => ?_)
  have hn₁ : f₁.stackBase + n ≤ f₁.sp := by
    rw [ha.extent.stackBase, ha.extent.sp]
    exact hn
  exact leaves_update ⟨ha.coherent.popN hn₁, fun hb => (ha.backed hb).popN n⟩

/-- An exchange, whether it succeeds or not. -/
theorem swap_leaves (h : f.Coherent) (hs : 1 < f.sp) :
    Leaves swap f fun _ f' => f'.Coherent ∧ (f.Backed none → f'.Backed none) := by
  unfold swap
  have hc := h.pushCopy (s := f.peek 2) (Nat.sub_lt (by lia) (by lia))
  have hb := fun hb : f.Backed none => hb.pushCopy h.sound.sp_le (f.peek 2)
  have hsp := sp_pushCopy f (f.peek 2)
  have hbase : (f.pushCopy (f.peek 2)).stackBase = f.stackBase :=
    (continues_pushCopy f (f.peek 2)).stackBase
  refine leaves_bind (leaves_update (leaves_look ?_))
  generalize f.pushCopy (f.peek 2) = f₁ at hc hb hsp hbase
  refine leaves_bind ((store_leaves hc (Nat.sub_lt (by lia) (by lia))).mono fun _ f₂ h₂ => ?_)
  have hsp₂ := h₂.extent.sp
  refine leaves_bind ((store_leaves h₂.coherent ?_).mono fun _ f₃ h₃ => ?_)
  · rw [hsp₂]
    exact Nat.sub_lt (by lia) (by lia)
  · have hsp₃ := h₃.extent.sp
    have hpos : 0 < f₃.sp := by lia
    refine leaves_update ⟨⟨((h₃.coherent.tracks .int32).pop hpos).sound, ?_⟩,
      fun hb₀ => (h₃.backed (h₂.backed (hb hb₀))).pop⟩
    have hbase₃ := h₃.extent.stackBase.trans (h₂.extent.stackBase.trans hbase)
    change f₃.stackBase ≤ f₃.sp - 1
    have := h.base
    lia

/-! ### Letting go of registers -/

theorem syncAll_leaves (h : f.Coherent) : Leaves syncAll f fun _ f' => f.Passes f' := by
  refine Leaves.passes h ?_ (syncAll_ensures (h.tracks .int32))
  refine leaves_look (leaves_bind (leaves_emitAll (leaves_update ?_)))
  intro dead hb s hl
  rw [entry_mapLive f _ s h.sound.sp_le, if_pos (show s < f.sp from hl.1)]
  exact fun _ _ => rfl

/-- Before all registers are dropped every slot is stored. -/
theorem ensureNoTemps_leaves (h : f.Coherent) : Leaves ensureNoTemps f fun _ f' => f' = f := by
  unfold ensureNoTemps
  apply leaves_look
  split
  · exact leaves_fail h
  · exact leaves_pure rfl

/-- Once memory has every value, every slot is backed. -/
theorem syncAndKill_leaves (h : f.Coherent) :
    Leaves syncAndKill f fun _ f' => ∀ dead, f'.Backed dead := by
  unfold syncAndKill
  refine leaves_bind ((ensureNoTemps_leaves h).mono ?_)
  rintro - f₁ rfl
  refine leaves_bind (leaves_look (leaves_bind (leaves_emitAll (leaves_update ?_))))
  refine leaves_update fun dead s hl => ?_
  have hs : s < f₁.sp := hl.1
  have hsp : (f₁.mapLive synced).sp ≤ (f₁.mapLive synced).entries.size := by
    simpa [mapLive] using h.sound.sp_le
  have hent : (f₁.mapLive synced).killed.entry s = (f₁.entry s).synced.withoutRegs := by
    rw [entry_killed hsp, if_pos (show s < (f₁.mapLive synced).sp from hs),
      entry_mapLive f₁ _ s h.sound.sp_le, if_pos hs]
  change ((f₁.mapLive synced).killed.entry s).Backed
  rw [hent]
  exact fun _ _ => rfl

end FrameM

namespace Frame

variable {f : Frame}

theorem Coherent.reset (h : f.Coherent) (depth : Nat) :
    (f.reset depth).Coherent ∧ ∀ dead, (f.reset depth).Backed dead := by
  have hbase : f.stackBase ≤ f.entries.size := Nat.le_trans h.base h.sound.sp_le
  refine ⟨⟨sound_reset hbase depth, Nat.le_add_right _ _⟩, fun dead => ?_⟩
  exact backed_of_inMemory f.canonicalTypes fun s hs => entry_reset hbase hs

end Frame

theorem FrameM.syncAndForget_leaves {f : Frame} (h : f.Coherent) :
    Leaves syncAndForget f fun _ f' => f'.Coherent ∧ ∀ dead, f'.Backed dead := by
  unfold syncAndForget
  refine leaves_bind ((ensureNoTemps_leaves h).mono ?_)
  rintro - f₁ rfl
  refine leaves_bind ((syncAll_leaves h).mono fun _ f₂ hp => ?_)
  exact leaves_update (hp.coherent.reset f₂.depth)

end FastPath
