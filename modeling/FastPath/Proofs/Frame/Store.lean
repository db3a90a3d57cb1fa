import FastPath.Proofs.Frame.HandOver

/-!
# Moving values between slots

Before a slot is assigned, the copies of its old value are given to one of them, so that the
slot can be overwritten. It is then dead until it becomes a constant, a copy of a lower slot,
or the owner of the registers of the source.
-/

namespace FastPath

open Frame

variable {D : Cell.Discipline}

namespace Frame

variable {f : Frame} {m : Machine} {env : Slot → Value} {s t : Slot}

variable {dead : Option Slot} {v : Value} {e : Entry} {f' f₁ f₂ f₃ : Frame} {m' m₁ : Machine}

/-- The count of changes does not matter. -/
theorem Tracks.bumpGeneration (h : f.Tracks dead m env) : f.bumpGeneration.Tracks dead m env :=
  ⟨⟨h.sound.sp_le, h.sound.copy, h.sound.bare, h.sound.constant, h.sound.freg_type,
    h.sound.tag_type, h.sound.data_iff, h.sound.tag_iff, h.sound.fdata_iff, h.sound.ftag⟩,
    h.room, h.holds⟩

theorem assign_of_eq (h : env t = v) : assign env t v = env := by
  funext s
  by_cases hs : s = t
  · subst hs
    rw [assign_self, h]
  · exact assign_ne hs

/-- Only the values of live slots matter. -/
theorem Tracks.of_env {env' : Slot → Value} (h : f.Tracks dead m env)
    (henv : ∀ s, f.Live dead s → env' s = env s) : f.Tracks dead m env' := by
  refine ⟨h.sound, h.room, fun s hl => ?_⟩
  refine (h.holds s hl).congr rfl (henv s hl) (fun b hb => ⟨henv b ?_, rfl⟩) rfl
    (fun _ _ => rfl) fun _ _ => rfl
  obtain ⟨hlt, hd, -⟩ := h.sound.copy s b hl hb
  exact ⟨Nat.lt_trans hlt hl.1, hd⟩

/-- A dead slot is assigned a constant or a copy of a lower slot. -/
theorem Tracks.revive (h : f.Tracks (some t) m env) (ht : t < f.sp) (hown : e.role ≠ .own)
    (hdata : e.data = .memory) (htag : e.tag = none)
    (hconst : ∀ w, e.role = .constant w → e.type = .ofValue w ∧ w = v)
    (hcopy : ∀ b, e.role = .copyOf b →
      b < t ∧ f.Live (some t) b ∧ (f.entry b).role = .own ∧
      env b = v) (hsync : e.isSynced = false) :
    (f.setEntry t e).Tracks none m (assign env t v) := by
  have hself : (f.setEntry t e).entry t = e := by
    rw [entry_setEntry, if_pos ⟨rfl, Nat.lt_of_lt_of_le ht h.sound.sp_le⟩]
  have hdead : ¬f.Live (some t) t := fun hd => hd.2 rfl
  have hother : ∀ s, s ≠ t → (f.setEntry t e).entry s = f.entry s := by
    intro s hs
    rw [entry_setEntry, if_neg (fun hc => hs hc.1.symm)]
  refine h.replace t ?_ (by simp) rfl (size_setEntry ..) hother (fun s hs => assign_ne hs)
    ?_ ?_ (fun _ => by rw [hself]; exact ⟨hdata, htag⟩) ?_
    ⟨?_, ?_, ?_, ?_, ?_, h.sound.ftag⟩ ?_
  · intro s
    simp only [Live, sp_setEntry]
    grind
  · intro s hl hrole
    exact absurd rfl (h.sound.copy s t hl hrole).2.1
  · intro b hb
    obtain ⟨hlt, hlb, ho, -⟩ := hcopy b (hself ▸ hb)
    exact ⟨hlt, hlb, ho⟩
  · intro w hw
    rw [hself] at hw ⊢
    exact (hconst w hw).1
  · simp [hself, hdata]
  · simp [hself, htag]
  · intro s r
    have := h.sound.data_iff s r
    grind
  · intro s r
    have := h.sound.tag_iff s r
    grind
  · intro s r
    have := h.sound.fdata_iff s r
    grind
  · unfold Holds
    rw [hself]
    cases hrole : e.role with
    | own => exact absurd hrole hown
    | constant w => simp [(hconst w hrole).2, hsync]
    | copyOf b =>
      obtain ⟨hlt, -, -, hb⟩ := hcopy b hrole
      simp [assign_ne (Nat.ne_of_lt hlt), hb, hsync]

/-! ### What an assignment keeps -/

/-- Temporaries stay bound and keep their contents. Pinned registers of slots may change
hands. -/
structure KeepsTemps (f : Frame) (m : Machine) (f' : Frame) (m' : Machine) : Prop where
  temp : ∀ r, f.regs.binding r = .temp → f'.regs.binding r = .temp ∧ m'.reg r = m.reg r
  ftemp : ∀ r, f.regs.fbinding r = .temp → f'.regs.fbinding r = .temp ∧ m'.freg r = m.freg r
  world : m.SameWorld m'

/-- The frames have the same slots and describe the same point of the function. -/
structure SameExtent (f f' : Frame) : Prop where
  argCount : f'.argCount = f.argCount
  localCount : f'.localCount = f.localCount
  sp : f'.sp = f.sp
  maxSp : f'.maxSp = f.maxSp
  pc : f'.pc = f.pc
  baseTypes : f'.baseTypes = f.baseTypes

/-- The frames are of one function and describe the same point of it. The stack may have
grown or shrunk. -/
structure Continues (f f' : Frame) : Prop where
  argCount : f'.argCount = f.argCount
  localCount : f'.localCount = f.localCount
  maxSp : f.maxSp ≤ f'.maxSp
  pc : f'.pc = f.pc
  baseTypes : f'.baseTypes = f.baseTypes

theorem Keeps.keepsTemps (h : f.Keeps m f' m') :
    f.KeepsTemps m f' m' where
  temp r hr := ⟨(h.binding r (.inl hr)).trans hr, h.contents r (.inl hr)⟩
  ftemp r hr := ⟨(h.fbinding r (.inl hr)).trans hr, h.fcontents r (.inl hr)⟩
  world := h.world

theorem KeepsTemps.trans {m₂ m₃ : Machine} (h : f₁.KeepsTemps m₁ f₂ m₂)
    (h' : f₂.KeepsTemps m₂ f₃ m₃) : f₁.KeepsTemps m₁ f₃ m₃ where
  temp r hr :=
    have ⟨hb, hc⟩ := h.temp r hr
    ⟨(h'.temp r hb).1, (h'.temp r hb).2.trans hc⟩
  ftemp r hr :=
    have ⟨hb, hc⟩ := h.ftemp r hr
    ⟨(h'.ftemp r hb).1, (h'.ftemp r hb).2.trans hc⟩
  world := h.world.trans h'.world

theorem SameView.sameExtent (h : f.SameView f') : f.SameExtent f' :=
  ⟨h.argCount, h.localCount, h.sp, h.maxSp, h.pc, h.baseTypes⟩

theorem Shuffles.sameExtent (h : f.Shuffles dead m env f' m') : f.SameExtent f' :=
  ⟨h.argCount, h.localCount, h.sp, h.maxSp, h.pc, h.baseTypes⟩

theorem SameExtent.trans (h : f₁.SameExtent f₂) (h' : f₂.SameExtent f₃) : f₁.SameExtent f₃ :=
  ⟨h'.argCount.trans h.argCount, h'.localCount.trans h.localCount, h'.sp.trans h.sp,
    h'.maxSp.trans h.maxSp, h'.pc.trans h.pc, h'.baseTypes.trans h.baseTypes⟩

theorem SameExtent.continues (h : f.SameExtent f') : f.Continues f' :=
  ⟨h.argCount, h.localCount, Nat.le_of_eq h.maxSp.symm, h.pc, h.baseTypes⟩

theorem Continues.trans (h : f₁.Continues f₂) (h' : f₂.Continues f₃) : f₁.Continues f₃ :=
  ⟨h'.argCount.trans h.argCount, h'.localCount.trans h.localCount, Nat.le_trans h.maxSp h'.maxSp,
    h'.pc.trans h.pc, h'.baseTypes.trans h.baseTypes⟩

theorem Continues.stackBase (h : f.Continues f') : f'.stackBase = f.stackBase := by
  simp only [Frame.stackBase, h.argCount, h.localCount]

theorem continues_pop (f : Frame) : f.Continues f.pop := ⟨rfl, rfl, Nat.le_refl _, rfl, rfl⟩

theorem continues_popN (n : Nat) (f : Frame) : f.Continues (popN n f) := by
  induction n generalizing f with
  | zero => exact (SameExtent.continues ⟨rfl, rfl, rfl, rfl, rfl, rfl⟩)
  | succ n ih => exact (continues_pop f).trans (ih f.pop)

theorem continues_pushCopy (f : Frame) (s : Slot) : f.Continues (f.pushCopy s) := by
  unfold pushCopy
  split <;> exact ⟨rfl, rfl, Nat.le_max_left _ _, rfl, rfl⟩

/-- The slot `t` has been assigned the value `v`. -/
structure Assigns [Cell.Discipline] (f : Frame) (m : Machine) (env : Slot → Value) (t : Slot)
    (v : Value) (f' : Frame) (m' : Machine) : Prop where
  tracks : f'.Tracks none m' (assign env t v)
  keeps : f.KeepsTemps m f' m'
  extent : f.SameExtent f'

/-- The entry of a value that has been loaded and is handed over. -/
theorem unsync_eq {e₀ : Entry} (hrole : e.role = .own) (htype : e.type = e₀.type)
    (htypes : e.types = e₀.types) (hinit : e.init = e₀.init) :
    e.unsync = { Entry.unsynced e₀.type e₀.types with
      init := e₀.init
      data := e.data
      tag := e.tag } := by
  cases e
  simp only at hrole htype htypes hinit
  simp [Entry.unsync, Entry.unsynced, hrole, htype, htypes, hinit]

theorem KeepsTemps.refl (f : Frame) (m : Machine) : f.KeepsTemps m f m :=
  ⟨fun _ hr => ⟨hr, rfl⟩, fun _ hr => ⟨hr, rfl⟩, .refl m⟩

theorem KeepsTemps.of_regs {f'' : Frame} (h : f.KeepsTemps m f' m') (hregs : f''.regs = f'.regs) :
    f.KeepsTemps m f'' m' := by
  refine ⟨fun r hr => ?_, fun r hr => ?_, h.world⟩
  · rw [hregs]
    exact h.temp r hr
  · rw [hregs]
    exact h.ftemp r hr

theorem SameExtent.refl (f : Frame) : f.SameExtent f := ⟨rfl, rfl, rfl, rfl, rfl, rfl⟩

theorem SameExtent.setEntry (h : f.SameExtent f') : f.SameExtent (f'.setEntry t e) :=
  h.trans ⟨rfl, rfl, rfl, rfl, rfl, rfl⟩

/-- Taking the registers of a slot leaves the temporaries. -/
theorem Sound.keepsTemps_release (h : f.Sound none) (hs : s < f.sp) :
    f.KeepsTemps m (f.release s) m := by
  have hl := live_of_lt hs
  refine ⟨fun r hr => ⟨?_, rfl⟩, fun r hr => ⟨?_, rfl⟩, .refl m⟩
  · have hd := h.data_iff s r
    have ht := h.tag_iff s r
    have := binding_release f.regs (f.entry s) r
    change (freeTag (freeData f.regs (f.entry s).data) (f.entry s).tag).binding r = .temp
    grind
  · have hd := h.fdata_iff s r
    have := fbinding_release f.regs (f.entry s) r
    change (freeTag (freeData f.regs (f.entry s).data) (f.entry s).tag).fbinding r = .temp
    grind

theorem Sound.keepsTemps_pop (h : f.Sound none) (hs : 0 < f.sp) : f.KeepsTemps m f.pop m :=
  (h.keepsTemps_release (s := f.peek 1) (Nat.sub_lt hs Nat.one_pos)).of_regs rfl

theorem Tracks.keepsTemps_popN {n : Nat} (h : f.Tracks none m env) (hs : n ≤ f.sp) :
    f.KeepsTemps m (Frame.popN n f) m := by
  induction n generalizing f with
  | zero => exact .refl f m
  | succ n ih =>
    have hpos : 0 < f.sp := Nat.lt_of_lt_of_le (Nat.succ_pos n) hs
    exact (h.sound.keepsTemps_pop hpos).trans (ih (h.pop hpos) (Nat.le_sub_one_of_lt hs))

theorem sp_popN (n : Nat) (f : Frame) : (popN n f).sp = f.sp - n := by
  induction n generalizing f with
  | zero => rfl
  | succ n ih =>
    rw [popN, ih]
    change f.sp - 1 - n = f.sp - (n + 1)
    rw [Nat.sub_sub, Nat.add_comm]

/-- The last step of an assignment: the value is in registers, and these change hands. -/
theorem Loads.handOver {g : RegisterFile} {d : DataLoc} {tag : Option Reg}
    (h : f.Loads (some t) m env f₁ m₁) (hl : f.Live (some t) s) (ht : t < s)
    (hown : (f.entry s).role = .own) (hdata : (f₁.entry s).data = d) (htag : (f₁.entry s).tag = tag)
    (hregs : (f₁.entry s).InRegs) (hg : f₁.Rebinds s t g)
    (htemp : ∀ r, f.regs.binding r = .temp → g.binding r = f₁.regs.binding r)
    (hftemp : ∀ r, f.regs.fbinding r = .temp → g.fbinding r = f₁.regs.fbinding r) :
    f.Assigns m env t (env s) ((({ f₁ with regs := g }.setEntry t
      { Entry.unsynced (f.entry s).type (f.entry s).types with
        init := (f.entry s).init
        data := d
        tag := tag }).setEntry s
      { Entry.copy t with
        dataSynced := f₁.isSynced s
        tagSynced := f₁.isSynced s }).redirect (f₁.copiesOf s) t).bumpGeneration m₁ := by
  subst hdata htag
  obtain ⟨h₁, h₂, h₃, h₄, h₅, h₆, h₇, -⟩ := handOver_fields f₁ s t g
  have hrole := (h.view.role s).trans hown
  have hk := h.keeps.keepsTemps
  rw [← unsync_eq hrole (h.view.type s) (h.view.types s) (h.view.init s)]
  change f.Assigns m env t (env s) (f₁.handOver s t g).bumpGeneration m₁
  refine ⟨?_, ⟨fun r hr => ?_, fun r hr => ?_, hk.world⟩, ?_⟩
  · exact (h.tracks.handOver (h.view.live.2 hl) ht hrole hregs hg).bumpGeneration
  · rw [regs_bumpGeneration, h₇, htemp r hr]
    exact hk.temp r hr
  · rw [regs_bumpGeneration, h₇, hftemp r hr]
    exact hk.ftemp r hr
  · exact h.view.sameExtent.trans ⟨h₁, h₂, h₃, h₄, h₅, h₆⟩

end Frame

namespace FrameM

variable {f : Frame} {m : Machine} {env : Slot → Value} {s t : Slot}

variable {dead : Option Slot}

/-- A tag that the type implies is in no register. -/
theorem tag_eq_none (h : f.Sound dead) (hl : f.Live dead s) (htype : (f.entry s).type ≠ .unknown) :
    (f.entry s).tag = none := by
  cases htag : (f.entry s).tag with
  | none => rfl
  | some r => exact absurd (h.tag_type s r hl htag) htype

/-- Loading tag and payload of an owned value. -/
theorem ensures_loadWords {β : Type} {k : Reg → Reg → FrameM β} {Q : β → Frame → Machine → Prop}
    (h : f.Tracks dead m env) (hl : f.Live dead s) (hown : (f.entry s).role = .own)
    (hk : ∀ tag payload f' m', f.Loads dead m env f' m' → (f'.entry s).tag = some tag →
      (f'.entry s).data = .reg payload → Ensures (k tag payload) f' m' Q) :
    Ensures (do
      let tag ← tagReg s
      let payload ← withPinned tag (dataReg s)
      k tag payload) f m Q := by
  have hb := backing_of_own hown
  apply ensures_bind
  refine (tagReg_ensures h hl).mono ?_
  rintro tag f₁ m₁ ⟨hloads₁, -, htype, htag₁⟩
  rw [hb] at htype htag₁
  have hl₁ := hloads₁.view.live.2 hl
  have hpin := loads_pin hloads₁.tracks tag
  apply ensures_bind
  rw [withPinned_eq]
  apply ensures_marked
  refine (dataReg_ensures hpin.tracks (hpin.view.live.2 hl₁)).mono ?_
  rintro payload f₂ m₂ ⟨hloads₂, -, hdata₂⟩
  have hb₁ : f₁.backing s = s := (hloads₁.view.backing s).trans hb
  replace hdata₂ : (f₂.entry s).data = .reg payload := by
    rw [← hb₁]
    exact hdata₂
  -- the pin keeps the register of the tag
  have htag₂ : (f₂.entry s).tag = some tag := by
    have hr : f₁.regs.binding tag = .tag s := (hloads₁.tracks.sound.tag_iff s tag).2 ⟨hl₁, htag₁⟩
    have hlt := RegisterFile.lt_of_binding hr rfl
    have hk := hloads₂.keeps.binding tag (.inr (by simp [hlt]))
    exact ((hloads₂.tracks.sound.tag_iff s tag).1 (hk.trans (by simpa using hr))).2
  refine hk _ _ _ _ (hloads₁.trans hloads₂.unpin) ?_ ?_
  · split <;> exact htag₂
  · split <;> exact hdata₂

/-- Giving the value and the registers of a slot to a lower slot that is being overwritten. -/
theorem transfer_ensures (h : f.Tracks (some t) m env) (hl : f.Live (some t) s)
    (hown : (f.entry s).role = .own) :
    Ensures (transfer s t) f m fun _ f' m' => f.Assigns m env t (env s) f' m' := by
  unfold transfer
  split
  · exact ensures_bind ensures_fail
  next hlt =>
  have ht : t < s := Nat.lt_of_not_le hlt
  have hb := backing_of_own hown
  simp only [pure_bind]
  apply ensures_look
  split
  case h_1 htype =>
    apply ensures_bind
    refine (doubleReg_ensures h hl).mono ?_
    rintro r f₁ m₁ ⟨hloads, -, -, hdata⟩
    rw [hb] at hdata
    refine ensures_regs (ensures_update ?_)
    have hs := hloads.tracks.sound
    have hl₁ := hloads.view.live.2 hl
    have htag := tag_eq_none hs hl₁ (by simp [hloads.view.type, htype])
    refine hloads.handOver hl ht hown hdata htag (.inl ⟨r, hdata⟩)
      (rebinds_double hs hl₁ hdata htag) (fun _ _ => by simp) ?_
    have := (hs.fdata_iff s r).2 ⟨hl₁, hdata⟩
    have := hloads.keeps.keepsTemps.ftemp
    grind
  case h_2 htype =>
    refine ensures_loadWords h hl hown fun tag payload f₁ m₁ hloads htag hdata => ?_
    refine ensures_regs (ensures_bind (ensures_updateRegs
      (ensures_update ?_)))
    have hs := hloads.tracks.sound
    have hl₁ := hloads.view.live.2 hl
    refine hloads.handOver hl ht hown hdata htag (.inr ⟨⟨payload, hdata⟩, .inr (by simp [htag])⟩)
      (rebinds_words hs hl₁ hdata htag) ?_ (fun _ _ => by simp)
    have := (hs.data_iff s payload).2 ⟨hl₁, hdata⟩
    have := (hs.tag_iff s tag).2 ⟨hl₁, htag⟩
    have := hloads.keeps.keepsTemps.temp
    grind
  case h_3 htype htype' =>
    apply ensures_bind
    refine (dataReg_ensures h hl).mono ?_
    rintro r f₁ m₁ ⟨hloads, -, hdata⟩
    rw [hb] at hdata
    refine ensures_regs (ensures_update ?_)
    have hs := hloads.tracks.sound
    have hl₁ := hloads.view.live.2 hl
    have htag := tag_eq_none hs hl₁ (by simpa [hloads.view.type] using htype')
    have hknown : (f₁.entry s).type.tag?.isSome := by
      rw [hloads.view.type]
      cases hk : (f.entry s).type <;> simp_all [KnownType.tag?]
    refine hloads.handOver hl ht hown hdata htag (.inr ⟨⟨r, hdata⟩, .inl hknown⟩)
      (rebinds_payload hs hl₁ hdata htag) ?_ (fun _ _ => by simp)
    have := (hs.data_iff s r).2 ⟨hl₁, hdata⟩
    have := hloads.keeps.keepsTemps.temp
    grind

/-- Assigning a slot. -/
theorem store_ensures (h : f.Tracks none m env) (hs : s < f.sp) :
    Ensures (store t s) f m fun _ f' m' => f.Assigns m env t (env s) f' m' := by
  unfold store
  apply ensures_look
  split
  case isTrue hb =>
    refine ensures_pure ⟨?_, .refl f m, .refl f⟩
    rw [assign_of_eq]
    · exact h
    · rw [← hb]
      exact (h.backing ⟨hs, by simp⟩).2.1.symm
  case isFalse hb =>
  split
  · exact ensures_bind ensures_fail
  next hle =>
  have ht : t < s := Nat.lt_of_not_le hle
  simp only
  apply ensures_bind
  refine (uncopy_ensures h).mono ?_
  rintro - f₁ m₁ ⟨hshuf, hnone⟩
  have hs₁ : s < f₁.sp := hshuf.sp ▸ hs
  have ht₁ : t < f₁.sp := Nat.lt_trans ht hs₁
  refine ensures_bind (ensures_update (ensures_look ?_))
  have htr : (f₁.release t).bumpGeneration.Tracks (some t) m₁ env :=
    (hshuf.tracks.release ht₁ hnone).bumpGeneration
  have hkeep : f.KeepsTemps m (f₁.release t).bumpGeneration m₁ :=
    (hshuf.keeps.keepsTemps.trans (hshuf.tracks.sound.keepsTemps_release ht₁)).of_regs rfl
  have hext : f.SameExtent (f₁.release t).bumpGeneration :=
    hshuf.sameExtent.trans ⟨rfl, rfl, rfl, rfl, rfl, rfl⟩
  generalize (f₁.release t).bumpGeneration = f₂ at htr hkeep hext
  have hl : f₂.Live (some t) s := ⟨hext.sp ▸ hs, by simp; lia⟩
  have ht₂ : t < f₂.sp := Nat.lt_trans ht hl.1
  split
  case h_1 v hv =>
    refine ensures_update ⟨?_, hkeep.of_regs rfl, hext.setEntry⟩
    refine htr.revive ht₂ nofun rfl rfl ?_ nofun rfl
    rintro w ⟨⟩
    exact ⟨rfl, (htr.constant? hl hv).1.symm⟩
  case h_2 hv =>
    obtain ⟨hlb, henv, hown⟩ := htr.own_backing hl hv
    split
    case isTrue hlt =>
      refine ensures_update ⟨?_, hkeep.of_regs rfl, hext.setEntry⟩
      refine htr.revive ht₂ nofun rfl rfl nofun ?_ rfl
      rintro b ⟨⟩
      exact ⟨hlt, hlb, hown, henv.symm⟩
    case isFalse =>
      refine (transfer_ensures htr hlb hown).mono ?_
      rintro - f₃ m₃ ⟨ht₃, hk₃, he₃⟩
      rw [henv]
      exact ⟨ht₃, hkeep.trans hk₃, hext.trans he₃⟩

/-- Assigning a variable, and popping the assigned value if asked. -/
theorem storeVar_ensures (h : f.Tracks none m env) (hs : 0 < f.sp) (v : Bytecode.Var)
    (popped : Bool) : Ensures (storeVar v popped) f m fun _ f' m' =>
      f'.Tracks none m' (assign env (f.varSlot v) (env (f.peek 1))) ∧
      f.KeepsTemps m f' m' ∧ f.Continues f' ∧ f'.sp = if popped then f.sp - 1 else f.sp := by
  unfold storeVar
  apply ensures_look
  apply ensures_bind
  refine (store_ensures h (s := f.peek 1) (Nat.sub_lt hs Nat.one_pos)).mono ?_
  rintro - f₁ m₁ ⟨ht, hk, he⟩
  have hs₁ : 0 < f₁.sp := he.sp ▸ hs
  cases popped with
  | true =>
    refine ensures_update ⟨ht.pop hs₁, hk.trans (ht.sound.keepsTemps_pop hs₁),
      he.continues.trans (continues_pop f₁), ?_⟩
    change f₁.sp - 1 = f.sp - 1
    rw [he.sp]
  | false => exact ensures_pure ⟨ht, hk, he.continues, he.sp⟩

/-- Replacing the entries below the top by the top. -/
theorem shimmy_ensures {n : Nat} (h : f.Tracks none m env) (hs : n < f.sp) :
    Ensures (shimmy n) f m fun _ f' m' =>
      f'.Tracks none m' (assign env (f.peek (n + 1)) (env (f.peek 1))) ∧
      f.KeepsTemps m f' m' ∧ f.Continues f' ∧ f'.sp = f.sp - n := by
  unfold shimmy
  apply ensures_look
  apply ensures_bind
  have hpos : 0 < f.sp := Nat.lt_of_le_of_lt (Nat.zero_le n) hs
  refine (store_ensures h (s := f.peek 1) (Nat.sub_lt hpos Nat.one_pos)).mono ?_
  rintro - f₁ m₁ ⟨ht, hk, he⟩
  have hn : n ≤ f₁.sp := Nat.le_of_lt (he.sp ▸ hs)
  refine ensures_update ⟨ht.popN hn, hk.trans (ht.keepsTemps_popN hn),
    he.continues.trans (Frame.continues_popN n f₁), ?_⟩
  rw [Frame.sp_popN, he.sp]

/-- Exchanging the two top entries. The exchange needs the memory of one more slot. -/
theorem swap_ensures (h : f.Tracks none m env) (hs : 1 < f.sp) (hroom : f.sp < m.slots.size) :
    Ensures swap f m fun _ f' m' => f'.Tracks none m'
        (assign (assign env (f.peek 2) (env (f.peek 1))) (f.peek 1) (env (f.peek 2))) ∧
      f.KeepsTemps m f' m' ∧ f.Continues f' ∧ f'.sp = f.sp ∧ f.sp < f'.maxSp := by
  have hp₂ : f.peek 2 < f.sp := by
    simp only [peek]
    lia
  have hpush := h.pushCopy hp₂ hroom
  have hsp := sp_pushCopy f (f.peek 2)
  have hmax := maxSp_pushCopy f (f.peek 2)
  have hcont := continues_pushCopy f (f.peek 2)
  have hkeep : f.KeepsTemps m (f.pushCopy (f.peek 2)) m :=
    (KeepsTemps.refl f m).of_regs (regs_pushCopy f (f.peek 2))
  unfold swap
  refine ensures_bind (ensures_update (ensures_look (ensures_bind ?_)))
  generalize f.pushCopy (f.peek 2) = g at hpush hsp hmax hcont hkeep
  refine (store_ensures hpush (s := g.peek 2) ?_).mono ?_
  · simp only [peek]
    lia
  rintro - f₁ m₁ ⟨ht₁, hk₁, he₁⟩
  apply ensures_bind
  refine (store_ensures ht₁ (s := g.peek 1) ?_).mono ?_
  · simp only [peek, he₁.sp]
    lia
  rintro - f₂ m₂ ⟨ht₂, hk₂, he₂⟩
  have hsp₂ : f₂.sp = f.sp + 1 := he₂.sp.trans (he₁.sp.trans hsp)
  have hpos : 0 < f₂.sp := by lia
  refine ensures_update ⟨(ht₂.pop hpos).of_env ?_,
    (hkeep.trans (hk₁.trans hk₂)).trans (ht₂.sound.keepsTemps_pop hpos),
    (hcont.trans (he₁.continues.trans he₂.continues)).trans (continues_pop f₂), ?_, ?_⟩
  · intro s hl
    have hlt : s < f₂.sp - 1 := hl.1
    simp only [assign, peek, hsp]
    grind
  · change f₂.sp - 1 = f.sp
    lia
  · change f.sp < f₂.maxSp
    rw [he₂.maxSp, he₁.maxSp]
    lia

end FrameM

end FastPath
