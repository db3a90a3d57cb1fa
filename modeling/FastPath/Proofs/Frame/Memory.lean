import FastPath.Proofs.Frame.Reset

/-!
# Values in memory

A slow path stores the frame, calls a stub that keeps no register, and loads the registers
again. In between only the memory of the frame has the values. `Frame.Saved` describes such
a machine: every slot has its value in its own memory, and the values are ones that the
entries of the frame allow.

The frame need not be the one that was stored. The stub replaces its operands by its result,
and the frame has done the same by the time the registers are loaded.
-/

namespace FastPath

variable {D : Cell.Discipline}

namespace Frame

variable {f f' : Frame} {m m' : Machine} {env : Slot → Value} {s : Slot}

/-- The values are ones that the entries allow. -/
structure Admits (f : Frame) (env : Slot → Value) : Prop where
  copy : ∀ s b, s < f.sp → (f.entry s).role = .copyOf b → b < s ∧ env s = env b
  constant : ∀ s v, s < f.sp → (f.entry s).role = .constant v → env s = v
  describes : ∀ s, s < f.sp → (f.entry s).role = .own → (f.entry s).type.Describes (env s)

/-- The memory of the frame has the values. -/
structure Saved [Cell.Discipline] (f : Frame) (m : Machine) (env : Slot → Value) : Prop where
  room : f.sp ≤ m.slots.size
  admits : f.Admits env
  stores : ∀ s, s < f.sp → m.Has (f.knownType s) s (env s)

theorem Tracks.admits (h : f.Tracks none m env) : f.Admits env where
  copy s b hs hr := ⟨(h.sound.copy s b (live_of_lt hs) hr).1,
    ((holds_copy hr).1 (h.holds s (live_of_lt hs))).1⟩
  constant s _ hs hr := ((holds_constant hr).1 (h.holds s (live_of_lt hs))).1
  describes _ hs hr := h.describes (live_of_lt hs) hr

/-- Storing a frame saves its values. -/
theorem Tracks.saved_of_synced (h : f.Tracks none m env) (hsync : f.Synced) :
    f.Saved m env where
  room := h.room
  admits := h.admits
  stores _ hs := h.has_of_synced hsync hs

theorem Saved.of_slots (h : f.Saved m env) (hm : m'.slots = m.slots) : f.Saved m' env where
  room := hm ▸ h.room
  admits := h.admits
  stores s hs := (h.stores s hs).of_slots hm

/-- Frames that agree on roles and types. -/
theorem Saved.of_entries (h : f.Saved m env) (hsp : f'.sp = f.sp)
    (hrole : ∀ s, (f'.entry s).role = (f.entry s).role)
    (htype : ∀ s, (f'.entry s).type = (f.entry s).type) : f'.Saved m env := by
  have hknown : ∀ s, f'.knownType s = f.knownType s := by
    intro s
    simp only [Frame.knownType, backingEntry, backing, Entry.copyOf?, hrole, htype]
  refine ⟨hsp ▸ h.room, ⟨?_, ?_, ?_⟩, ?_⟩
  · intro s b hs hr
    exact h.admits.copy s b (hsp ▸ hs) (hrole s ▸ hr)
  · intro s v hs hr
    exact h.admits.constant s v (hsp ▸ hs) (hrole s ▸ hr)
  · intro s hs hr
    rw [htype]
    exact h.admits.describes s (hsp ▸ hs) (hrole s ▸ hr)
  · intro s hs
    rw [hknown]
    exact h.stores s (hsp ▸ hs)

/-- What a frame has saved, it has saved under any flags. -/
theorem Tracks.saved_of_mapLive (h : (f.mapLive Entry.synced).Tracks none m env)
    (hsp : f.sp ≤ f.entries.size) : f.Saved m env := by
  refine (h.saved_of_synced (synced_mapLive hsp)).of_entries rfl ?_ ?_
  · intro s
    rw [entry_mapLive f _ s hsp]
    split <;> rfl
  · intro s
    exact (type_mapLive_synced hsp s).symm

theorem Tracks.runs_save (h : f.Tracks none m env) :
    ∃ m', Runs f.syncCode m m' ∧ m.OnlyMemory m' f.sp ∧ f.Saved m' env := by
  obtain ⟨m', hr, hm, -, ht⟩ := h.runs_syncCode
  exact ⟨m', hr, hm, ht.saved_of_mapLive h.sound.sp_le⟩

/-! ### Loading registers -/

/-- Only the registers of one slot have been written. -/
structure LoadsSlot (f : Frame) (s : Slot) (m m' : Machine) : Prop where
  slots : m'.slots = m.slots
  world : m.SameWorld m'
  reg : ∀ r, f.regs.binding r ≠ .data s → f.regs.binding r ≠ .tag s → m'.reg r = m.reg r
  freg : ∀ r, f.regs.fbinding r ≠ .data s → m'.freg r = m.freg r

theorem LoadsSlot.refl (f : Frame) (s : Slot) (m : Machine) : f.LoadsSlot s m m :=
  ⟨rfl, .refl m, fun _ _ _ => rfl, fun _ _ => rfl⟩

theorem LoadsSlot.trans {m₁ m₂ m₃ : Machine} (h : f.LoadsSlot s m₁ m₂)
    (h' : f.LoadsSlot s m₂ m₃) : f.LoadsSlot s m₁ m₃ where
  slots := h'.slots.trans h.slots
  world := h.world.trans h'.world
  reg r hd ht := (h'.reg r hd ht).trans (h.reg r hd ht)
  freg r hd := (h'.freg r hd).trans (h.freg r hd)

theorem LoadsSlot.setReg {r : Reg} (hr : f.regs.binding r = .data s ∨ f.regs.binding r = .tag s)
    (m : Machine) (w : UInt64) : f.LoadsSlot s m (m.setReg r w) := by
  refine ⟨rfl, .setReg m r w, fun r' hd ht => ?_, fun _ _ => rfl⟩
  have hne : r ≠ r' := by
    rintro rfl
    rcases hr with hr | hr
    · exact hd hr
    · exact ht hr
  simp [hne]

theorem LoadsSlot.setFReg {r : FReg} (hr : f.regs.fbinding r = .data s) (m : Machine)
    (d : Double) : f.LoadsSlot s m (m.setFReg r d) := by
  refine ⟨rfl, .setFReg m r d, fun _ _ _ => rfl, fun r' hd => ?_⟩
  have hne : r ≠ r' := by
    rintro rfl
    exact hd hr
  simp [hne]

/-- Loading the payload of a slot, if it is kept in a general register. -/
theorem runs_mergeData {c : Cell} {u : Value} (hs : f.Sound none) (hl : f.Live none s)
    (hc : m.slots[s]? = some c) (hu : c.Reads u)
    (hfit : (f.entry s).type.Fits u (env s)) :
    ∃ m', Runs (match (f.entry s).data with
        | .reg r => [.move r (.payload s)]
        | .freg r => [.loadDouble r s]
        | .memory => []) m m' ∧ f.LoadsSlot s m m' ∧
      (∀ r, (f.entry s).data = .reg r → m'.reg r = some c.payload) ∧
      ∀ r, (f.entry s).data = .freg r →
        ∃ d, m'.freg r = some d ∧ (Value.double d).same (env s) := by
  cases hdata : (f.entry s).data with
  | memory => exact ⟨m, .nil m, .refl f s m, by simp, by simp⟩
  | reg r =>
    have hb := (hs.data_iff s r).2 ⟨hl, hdata⟩
    have hlt : r.index < Reg.count := RegisterFile.lt_of_binding_ne_free (by rw [hb]; simp)
    have hop : m.operand? (.payload s) = some c.payload := by
      simp only [Machine.operand?, hc, Option.map_some]
    refine ⟨_, runs_singleton (executes_move hop hlt), .setReg (.inl hb) m _, ?_, by simp⟩
    rintro r' ⟨⟩
    simp [hlt]
  | freg r =>
    have hb := (hs.fdata_iff s r).2 ⟨hl, hdata⟩
    have hlt : r.index < FReg.count := Nat.lt_trans
      (RegisterFile.lt_of_fbinding_ne_free (f := f.regs) (r := r) (by rw [hb]; simp)) (by decide)
    refine ⟨_, runs_singleton (executes_loadDouble hc hlt), .setFReg hb m _, by simp, ?_⟩
    rintro r' ⟨⟩
    rw [hs.freg_type s r hl hdata] at hfit
    exact ⟨_, by simp [hlt], FrameM.cellDouble_same hu hfit.1 hfit.2⟩

/-- Loading the tag of a slot, if it is kept in a register. -/
theorem runs_mergeTag {c : Cell} (hs : f.Sound none) (hl : f.Live none s)
    (hc : m.slots[s]? = some c) :
    ∃ m', Runs (match (f.entry s).tag with
        | some r => [.move r (.tag s)]
        | none => []) m m' ∧ f.LoadsSlot s m m' ∧
      (∀ r, (f.entry s).tag = some r → m'.reg r = some c.tag) ∧
      (∀ r, (f.entry s).tag ≠ some r → m'.reg r = m.reg r) ∧ ∀ r, m'.freg r = m.freg r := by
  cases htag : (f.entry s).tag with
  | none => exact ⟨m, .nil m, .refl f s m, by simp, fun _ _ => rfl, fun _ => rfl⟩
  | some r =>
    have hb := (hs.tag_iff s r).2 ⟨hl, htag⟩
    have hlt : r.index < Reg.count := RegisterFile.lt_of_binding_ne_free (by rw [hb]; simp)
    have hop : m.operand? (.tag s) = some c.tag := by
      simp only [Machine.operand?, hc, Option.map_some]
    refine ⟨_, runs_singleton (executes_move hop hlt), .setReg (.inr hb) m _, ?_, ?_,
      fun _ => rfl⟩
    · rintro r' ⟨⟩
      simp [hlt]
    · intro r' hne
      have : r ≠ r' := fun heq => hne (heq ▸ rfl)
      simp [this]

/-- Loading the registers of one slot. -/
theorem Saved.runs_entryMergeCode (h : f.Saved m env) (hs : f.Sound none) (hlt : s < f.sp) :
    ∃ m', Runs (f.entryMergeCode s) m m' ∧ f.LoadsSlot s m m' ∧ f.Holds m' env s := by
  have hl : f.Live none s := live_of_lt hlt
  have hstores := h.stores s hlt
  cases hrole : (f.entry s).role with
  | copyOf b =>
    refine ⟨m, ?_, .refl f s m,
      (holds_copy hrole).2 ⟨(h.admits.copy s b hlt hrole).2, fun _ => ?_⟩⟩
    · simp only [entryMergeCode, hrole]
      exact .nil m
    · rwa [knownType, backingEntry, backing_of_copy hrole] at hstores
  | constant v =>
    have hv := h.admits.constant s v hlt hrole
    refine ⟨m, ?_, .refl f s m, (holds_constant hrole).2 ⟨hv, fun _ => ?_⟩⟩
    · simp only [entryMergeCode, hrole]
      exact .nil m
    · rwa [knownType, backingEntry, backing_of_constant hrole, hv] at hstores
  | own =>
    rw [knownType, backingEntry, backing_of_own hrole] at hstores
    obtain ⟨c, u, hc, hu, hfit⟩ := id hstores
    obtain ⟨m₁, hr₁, hl₁, hreg₁, hfreg₁⟩ := runs_mergeData hs hl hc hu hfit
    obtain ⟨m₂, hr₂, hl₂, htag₂, hreg₂, hfreg₂⟩ :=
      runs_mergeTag (m := m₁) hs hl (hl₁.slots ▸ hc)
    have hslots : m₂.slots = m.slots := hl₂.slots.trans hl₁.slots
    refine ⟨m₂, ?_, hl₁.trans hl₂, (holds_own hrole).2 ?_⟩
    · simp only [entryMergeCode, hrole]
      exact runs_append hr₁ hr₂
    · by_cases hdata : ∃ r, (f.entry s).data = .freg r
      · obtain ⟨r, hr⟩ := hdata
        obtain ⟨d, hd, hsame⟩ := hfreg₁ r hr
        refine (Entry.owns_freg hr).2 ⟨d, (hfreg₂ r).trans hd, hsame, fun _ => ?_⟩
        rw [hs.freg_type s r hl hr] at hstores
        exact hstores.of_slots hslots
      · have hne : ∀ r, (f.entry s).data ≠ .freg r := fun r hr => hdata ⟨r, hr⟩
        refine (Entry.owns_words hne).2 ⟨c, u, ⟨?_, ?_, ?_, ?_⟩, hu, hfit⟩
        · unfold Entry.tagWord?
          cases htype : (f.entry s).type.tag? with
          | some t =>
            have hdesc := (h.admits.describes s hlt hrole).1 t htype
            have hnd : (f.entry s).type ≠ .double := by
              intro heq
              rw [heq] at htype
              cases htype
            rw [Cell.tag_of_reads hu, hfit.eq hnd, hdesc]
          | none =>
            cases htag : (f.entry s).tag with
            | some r => exact htag₂ r htag
            | none => simp [hslots, hc]
        · unfold Entry.payloadWord?
          cases hd : (f.entry s).data with
          | freg r => exact absurd hd (hne r)
          | memory => simp [hslots, hc]
          | reg r =>
            have hb := (hs.data_iff s r).2 ⟨hl, hd⟩
            refine (hreg₂ r fun ht => ?_).trans (hreg₁ r hd)
            rw [(hs.tag_iff s r).2 ⟨hl, ht⟩] at hb
            cases hb
        · exact fun _ => by rw [hslots, hc]; rfl
        · exact fun _ => by rw [hslots, hc]; rfl

/-- Loading the registers of a frame whose values are saved. -/
theorem Saved.runs_mergeCode (h : f.Saved m env) (hs : f.Sound none) :
    ∃ m', Runs f.mergeCode m m' ∧ m.SameWorld m' ∧ m'.slots = m.slots ∧
      f.Tracks none m' env := by
  have key : ∀ k, k ≤ f.sp → ∃ m', Runs ((List.range k).flatMap f.entryMergeCode) m m' ∧
      m.SameWorld m' ∧ m'.slots = m.slots ∧ ∀ s, s < k → f.Holds m' env s := by
    intro k
    induction k with
    | zero =>
      intro _
      exact ⟨m, .nil m, .refl m, rfl, fun s hs => absurd hs (Nat.not_lt_zero s)⟩
    | succ k ih =>
      intro hk
      obtain ⟨m₁, hr₁, hw₁, hm₁, hh₁⟩ := ih (Nat.le_of_succ_le hk)
      obtain ⟨m₂, hr₂, hl₂, hh₂⟩ := (h.of_slots hm₁).runs_entryMergeCode hs hk
      refine ⟨m₂, ?_, hw₁.trans hl₂.world, hl₂.slots.trans hm₁, fun s hlt => ?_⟩
      · rw [List.range_succ, List.flatMap_append]
        simpa using runs_append hr₁ hr₂
      · rcases Nat.lt_succ_iff_lt_or_eq.1 hlt with hlt | rfl
        · have hl := live_of_lt (Nat.lt_trans hlt hk)
          refine (hh₁ s hlt).congr rfl rfl (fun _ _ => ⟨rfl, rfl⟩) (by rw [hl₂.slots]) ?_ ?_
          · rintro r (hr | hr)
            · have hb := (hs.data_iff s r).2 ⟨hl, hr⟩
              exact hl₂.reg r (by rw [hb]; simp; exact Nat.ne_of_lt hlt) (by rw [hb]; simp)
            · have hb := (hs.tag_iff s r).2 ⟨hl, hr⟩
              exact hl₂.reg r (by rw [hb]; simp) (by rw [hb]; simp; exact Nat.ne_of_lt hlt)
          · intro r hr
            have hb := (hs.fdata_iff s r).2 ⟨hl, hr⟩
            exact hl₂.freg r (by rw [hb]; simp; exact Nat.ne_of_lt hlt)
        · exact hh₂
  obtain ⟨m', hr, hw, hm, hh⟩ := key f.sp (Nat.le_refl _)
  exact ⟨m', hr, hw, hm, hs, hm ▸ h.room, fun s hl => hh s hl.1⟩

/-! ### A result in the place of operands -/

/-- Fewer slots of the same memory. -/
theorem Saved.restrict (h : f.Saved m env) (hsp : f'.sp ≤ f.sp)
    (hentry : ∀ s, s < f'.sp → f'.entry s = f.entry s) (hsize : m'.slots.size = m.slots.size)
    (hslots : ∀ s, s < f'.sp → m'.slots[s]? = m.slots[s]?) : f'.Saved m' env := by
  have hlt : ∀ s, s < f'.sp → s < f.sp := fun s hs => Nat.lt_of_lt_of_le hs hsp
  refine ⟨hsize ▸ Nat.le_trans hsp h.room, ⟨?_, ?_, ?_⟩, ?_⟩
  · intro s b hs hr
    exact h.admits.copy s b (hlt s hs) (hentry s hs ▸ hr)
  · intro s v hs hr
    exact h.admits.constant s v (hlt s hs) (hentry s hs ▸ hr)
  · intro s hs hr
    rw [hentry s hs] at hr ⊢
    exact h.admits.describes s (hlt s hs) hr
  · intro s hlt'
    have hknown : f'.knownType s = f.knownType s := by
      have hb : f'.backing s = f.backing s := by simp only [backing, hentry s hlt']
      have hle : f.backing s ≤ s := by
        cases hr : (f.entry s).role with
        | own => exact Nat.le_of_eq (backing_of_own hr)
        | constant v => exact Nat.le_of_eq (backing_of_constant hr)
        | copyOf b =>
          rw [backing_of_copy hr]
          exact Nat.le_of_lt (h.admits.copy s b (hlt s hlt') hr).1
      simp only [Frame.knownType, backingEntry, hb, hentry _ (Nat.lt_of_le_of_lt hle hlt')]
    obtain ⟨c, u, hc, hu, hfit⟩ := h.stores s (hlt s hlt')
    rw [hknown]
    exact ⟨c, u, (hslots s hlt').trans hc, hu, hfit⟩

/-- One more slot, which owns its value. -/
theorem Saved.push (h : f.Saved m env) {v : Value} (hsp : f'.sp = f.sp + 1)
    (hentry : ∀ s, s < f.sp → f'.entry s = f.entry s) (hrole : (f'.entry f.sp).role = .own)
    (hdesc : (f'.entry f.sp).type.Describes v)
    (hst : m.Has (f'.entry f.sp).type f.sp v) : f'.Saved m (assign env f.sp v) := by
  have hroom : f.sp < m.slots.size := by
    obtain ⟨c, _, hc, _⟩ := hst
    exact (Array.getElem?_eq_some_iff.1 hc).1
  have hlow : ∀ s, s < f'.sp → s ≠ f.sp → s < f.sp := by
    intro s hlt hne
    rw [hsp] at hlt
    exact Nat.lt_of_le_of_ne (Nat.le_of_lt_succ hlt) hne
  refine ⟨hsp ▸ hroom, ⟨?_, ?_, ?_⟩, ?_⟩
  · intro s b hlt hr
    by_cases heq : s = f.sp
    · rw [heq, hrole] at hr
      cases hr
    · have hlt' := hlow s hlt heq
      rw [hentry s hlt'] at hr
      obtain ⟨hb, henv⟩ := h.admits.copy s b hlt' hr
      rw [assign_ne heq, assign_ne (Nat.ne_of_lt (Nat.lt_trans hb hlt'))]
      exact ⟨hb, henv⟩
  · intro s w hlt hr
    by_cases heq : s = f.sp
    · rw [heq, hrole] at hr
      cases hr
    · have hlt' := hlow s hlt heq
      rw [hentry s hlt'] at hr
      rw [assign_ne heq]
      exact h.admits.constant s w hlt' hr
  · intro s hlt hr
    by_cases heq : s = f.sp
    · rw [heq, assign_self]
      exact hdesc
    · have hlt' := hlow s hlt heq
      rw [hentry s hlt'] at hr ⊢
      rw [assign_ne heq]
      exact h.admits.describes s hlt' hr
  · intro s hlt
    by_cases heq : s = f.sp
    · rw [heq, assign_self, knownType, backingEntry, backing_of_own hrole]
      exact hst
    · have hlt' := hlow s hlt heq
      have hr : ({ f' with sp := f.sp } : Frame).Saved m env :=
        h.restrict (Nat.le_refl _) (fun s hs => hentry s hs) rfl fun _ _ => rfl
      rw [assign_ne heq]
      exact hr.stores s hlt'

/-- A result has taken the place of the operands. -/
theorem Saved.replace (h : f.Saved m env) {n : Nat} {v : Value} (hn : n ≤ f.sp)
    (hsp : f'.sp = n + 1) (hentry : ∀ s, s < n → f'.entry s = f.entry s)
    (hrole : (f'.entry n).role = .own) (hdesc : (f'.entry n).type.Describes v)
    (hsize : m'.slots.size = m.slots.size) (hslots : ∀ s, s < n → m'.slots[s]? = m.slots[s]?)
    (hres : m'.slots[n]? = some v.toCell) : f'.Saved m' (assign env n v) := by
  have hlow : ({ f with sp := n } : Frame).Saved m' env :=
    h.restrict hn (fun _ _ => rfl) hsize hslots
  exact hlow.push hsp hentry hrole hdesc
    ⟨_, v, hres, Cell.reads_toCell v, KnownType.Fits.refl hdesc.2⟩

end Frame

end FastPath
