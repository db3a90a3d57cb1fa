import FastPath.Proofs.Frame.Emission

/-!
# Bringing memory up to date

The code that the tracker emits to store a slot changes the memory of that slot and nothing
else, and afterwards memory has the value. What is stored depends on the role of the slot:
a value the slot owns, part by part; a copy, from the places of the slot it copies; a
constant.
-/

namespace FastPath

open Frame Entry Machine

variable {D : Cell.Discipline}

/-! ### Owned values -/

section Own

variable {e : Entry} {m : Machine} {s : Slot} {c : Cell}

/-- A value that both synchronisation flags vouch for is in memory. -/
theorem Entry.Words.getElem? (hw : e.Words m s c) (ht : e.tagSynced) (hd : e.dataSynced) :
    m.slots[s]? = some c := by
  have htag := hw.tagSynced ht
  have hpay := hw.dataSynced hd
  cases hc : m.slots[s]? with
  | none =>
    rw [hc] at htag
    cases htag
  | some c' =>
    rw [hc] at htag hpay
    simp only [Option.map_some, Option.some.injEq] at htag hpay
    cases c'
    cases c
    simp_all

/-- Storing the payload of an owned value. -/
theorem Entry.Words.runs_dataSyncCode (hw : e.Words m s c) (hs : s < m.slots.size) :
    ∃ m', Runs (dataSyncCode s e) m m' ∧ m.OnlySlot m' s ∧
      m'.slots[s]?.map (·.payload) = some c.payload ∧
      m'.slots[s]?.map (·.tag) = m.slots[s]?.map (·.tag) := by
  have hcell := Array.getElem?_eq_getElem hs
  have hpay := hw.payload
  unfold dataSyncCode
  split
  case h_1 r _ hdata =>
    simp only [payloadWord?, hdata] at hpay
    refine ⟨_, runs_singleton (executes_storePayload hpay hs), .modifySlot _ _ _, ?_, ?_⟩ <;>
      simp only [getElem?_modifySlot, if_true, hcell, Option.map_some]
  case h_2 x hnone =>
    refine ⟨m, .nil m, .refl m s, ?_, rfl⟩
    cases hsync : e.dataSynced with
    | true => exact hw.dataSynced hsync
    | false =>
      cases hdata : e.data with
      | reg r => exact absurd hdata (hnone r hsync)
      | freg r => simp [payloadWord?, hdata] at hpay
      | memory => simpa only [payloadWord?, hdata] using hpay

/-- Storing the tag of an owned value. -/
theorem Entry.Words.runs_tagSyncCode (hw : e.Words m s c) (hs : s < m.slots.size) :
    ∃ m', Runs (tagSyncCode s e) m m' ∧ m.OnlySlot m' s ∧
      m'.slots[s]?.map (·.tag) = some c.tag ∧
      m'.slots[s]?.map (·.payload) = m.slots[s]?.map (·.payload) := by
  have htag := hw.tag
  have hstore : ∀ o, m.operand? o = some c.tag → ∃ m', Runs [.storeTag s o] m m' ∧
      m.OnlySlot m' s ∧ m'.slots[s]?.map (·.tag) = some c.tag ∧
      m'.slots[s]?.map (·.payload) = m.slots[s]?.map (·.payload) := by
    intro o ho
    have hcell := Array.getElem?_eq_getElem hs
    refine ⟨_, runs_singleton (executes_storeTag ho hs), .modifySlot _ _ _, ?_, ?_⟩ <;>
      simp only [getElem?_modifySlot, if_true, hcell, Option.map_some]
  unfold tagSyncCode
  split
  case isTrue hsync => exact ⟨m, .nil m, .refl m s, hw.tagSynced hsync, rfl⟩
  case isFalse =>
    unfold tagWord? at htag
    split <;> simp only [*] at htag
    · exact hstore _ ((m.operand?_ofTag _).trans htag)
    · exact hstore _ htag
    · exact ⟨m, .nil m, .refl m s, htag, rfl⟩

/-- The words of an owned value do not move when its memory is written with what they
are. -/
theorem Entry.Words.of_onlySlot (hw : e.Words m s c) {m' : Machine} (hm : m.OnlySlot m' s)
    (htag : m'.slots[s]?.map (·.tag) = some c.tag ∨
      m'.slots[s]?.map (·.tag) = m.slots[s]?.map (·.tag))
    (hpay : m'.slots[s]?.map (·.payload) = some c.payload ∨
      m'.slots[s]?.map (·.payload) = m.slots[s]?.map (·.payload)) : e.Words m' s c := by
  obtain ⟨h₁, h₂, h₃, h₄⟩ := hw
  have hreg := hm.reg
  constructor <;> grind [tagWord?, payloadWord?]

/-- Storing both parts of an owned value. -/
theorem Entry.Words.runs_ownSyncCode (hw : e.Words m s c) (hs : s < m.slots.size) :
    ∃ m', Runs (dataSyncCode s e ++ tagSyncCode s e) m m' ∧ m.OnlySlot m' s ∧
      m'.slots[s]? = some c := by
  obtain ⟨m₁, hr₁, hm₁, hpay₁, htag₁⟩ := hw.runs_dataSyncCode hs
  have hw₁ := hw.of_onlySlot hm₁ (.inr htag₁) (.inl hpay₁)
  obtain ⟨m₂, hr₂, hm₂, htag₂, hpay₂⟩ := hw₁.runs_tagSyncCode (hm₁.world.size ▸ hs)
  refine ⟨m₂, runs_append hr₁ hr₂, hm₁.trans hm₂, ?_⟩
  rw [hpay₁] at hpay₂
  cases hc : m₂.slots[s]? <;> grind [Cell]

/-- Storing a number that is in a double register. -/
theorem runs_storeDouble {r : FReg} {d : Double} {v : Value} (hd : m.freg r = some d)
    (hv : (Value.double d).same v) (hs : s < m.slots.size) :
    ∃ m', Runs [.storeValue s (.double r)] m m' ∧ m.OnlySlot m' s ∧ m'.Has .double s v := by
  have hsrc : m.source? (.double r) = some (Value.number d).toCell := by
    simp only [source?, hd, Option.map_some]
  refine ⟨_, runs_singleton (executes_storeValue hsrc hs), .modifySlot _ _ _, ?_⟩
  refine ⟨(Value.number d).toCell, .number d, ?_, Cell.reads_toCell _, ?_⟩
  · simp only [getElem?_modifySlot, if_true, Array.getElem?_eq_getElem hs, Option.map_some]
  · simp only [KnownType.Fits, if_true]
    refine ⟨Value.same_trans (Value.number_same d) hv, ?_⟩
    rw [← Value.same_isNumber hv]
    rfl

end Own

/-! ### Copies -/

variable {m : Machine} {s : Slot} {f : Frame}

/-- Storing both words of a value in another slot. The payload is stored first, which leaves
every place of the tag alone. -/
theorem runs_storeWords {c : Cell} {p t : Operand} (hp : m.operand? p = some c.payload)
    (ht : ∀ m', m.OnlySlot m' s → m'.operand? t = some c.tag) (hs : s < m.slots.size) :
    ∃ m', Runs [.storePayload s p, .storeTag s t] m m' ∧ m.OnlySlot m' s ∧
      m'.slots[s]? = some c := by
  have hm := OnlySlot.modifySlot m s fun c' => { c' with payload := c.payload }
  refine ⟨_, .cons (executes_storePayload hp hs) (runs_singleton
    (executes_storeTag (ht _ hm) (hm.world.size ▸ hs))), hm.trans (.modifySlot _ _ _), ?_⟩
  simp only [getElem?_modifySlot, if_true, Array.getElem?_eq_getElem hs,
    Option.map_some]

/-- The words of an owned value are copied one by one, or both at once if both are in
memory. -/
theorem Entry.Words.runs_copySyncCode {b : Slot} {e : Entry} {c : Cell} (hw : e.Words m b c)
    (he : f.entry b = e) (hne : b ≠ s) (hs : s < m.slots.size) :
    ∃ m', Runs (f.copySyncCode s b) m m' ∧ m.OnlySlot m' s ∧ m'.slots[s]? = some c := by
  obtain ⟨htag, hpay, -, -⟩ := hw
  unfold tagWord? at htag
  unfold payloadWord? at hpay
  simp only [copySyncCode, he]
  have himm : ∀ t, e.type.tag? = some t → ∀ m', m.OnlySlot m' s →
      m'.operand? (.ofTag t) = some c.tag := by
    intro t ht m' _
    simp only [ht] at htag
    exact (m'.operand?_ofTag t).trans htag
  have hreg : ∀ r, e.type.tag? = none → e.tag = some r → ∀ m', m.OnlySlot m' s →
      m'.operand? (.reg r) = some c.tag := by
    intro r ht hr m' hm
    simp only [ht, hr] at htag
    exact (hm.reg r).trans htag
  have hmem : e.type.tag? = none → e.tag = none → ∀ m', m.OnlySlot m' s →
      m'.operand? (.tag b) = some c.tag := by
    intro ht hr m' hm
    simp only [ht, hr] at htag
    simp only [operand?, hm.slot b hne]
    exact htag
  cases hdata : e.data with
  | freg r => simp [hdata] at hpay
  | reg r =>
    simp only [hdata] at hpay ⊢
    refine runs_storeWords hpay ?_ hs
    split
    next t ht => exact himm t ht
    next r' ht hr => exact hreg r' ht hr
    next ht hr => exact hmem ht hr
  | memory =>
    simp only [hdata] at hpay ⊢
    split
    next t ht => exact runs_storeWords hpay (himm t ht) hs
    next r' ht hr => exact runs_storeWords hpay (hreg r' ht hr) hs
    next ht hr =>
      have hcell : m.slots[b]? = some c := by
        have := hmem ht hr m (.refl m s)
        simp only [operand?] at this
        cases hb : m.slots[b]? <;> grind [Cell]
      refine ⟨_, runs_singleton (executes_copySlot hcell hs), .modifySlot _ _ _, ?_⟩
      simp only [getElem?_modifySlot, if_true, Array.getElem?_eq_getElem hs,
        Option.map_some]

/-- Storing a copy reads the places of the slot that it copies. -/
theorem Entry.Owns.runs_copySyncCode {b : Slot} {v : Value} (ho : (f.entry b).Owns m b v)
    (hfreg : ∀ r, (f.entry b).data = .freg r →
      (f.entry b).type = .double) (hne : b ≠ s) (hs : s < m.slots.size) :
    ∃ m', Runs (f.copySyncCode s b) m m' ∧ m.OnlySlot m' s ∧
      m'.Has (f.entry b).type s v := by
  unfold Owns at ho
  cases hdata : (f.entry b).data with
  | freg r =>
    simp only [copySyncCode, hdata] at ho ⊢
    obtain ⟨d, hd, hv, -⟩ := ho
    rw [hfreg r hdata]
    exact runs_storeDouble hd hv hs
  | reg r | memory =>
    simp only [hdata] at ho
    obtain ⟨c, u, hw, hu⟩ := ho
    obtain ⟨m', hr, hm, hc⟩ := hw.runs_copySyncCode (f := f) rfl hne hs
    exact ⟨m', hr, hm, c, u, hc, hu⟩

/-! ### One slot -/

namespace Frame

variable {f : Frame} {dead : Option Slot} {m : Machine} {env : Slot → Value} {s : Slot}

variable {f' : Frame} {m' : Machine}

/-- What holds of a slot with its memory up to date holds of it in any case. -/
theorem Holds.of_synced (h : f'.Holds m env s) (he : f'.entry s = (f.entry s).synced)
    (htype : ∀ b, (f'.entry b).type = (f.entry b).type) : f.Holds m env s := by
  cases hrole : (f.entry s).role with
  | own =>
    rw [holds_own (by rw [he]; exact hrole), he] at h
    rw [holds_own hrole]
    cases hdata : (f.entry s).data with
    | freg r =>
      rw [owns_freg hdata]
      obtain ⟨d, hd, hv, hst⟩ := (owns_freg (e := (f.entry s).synced) hdata).1 h
      exact ⟨d, hd, hv, fun _ => hst rfl⟩
    | _ =>
      have hne : ∀ r, (f.entry s).data ≠ .freg r := by simp [hdata]
      rw [owns_words hne]
      obtain ⟨c, u, hw, hu⟩ := (owns_words (e := (f.entry s).synced) hne).1 h
      exact ⟨c, u, hw.of_synced, hu⟩
  | copyOf b =>
    rw [holds_copy (by rw [he]; exact hrole), he, htype] at h
    rw [holds_copy hrole]
    exact ⟨h.1, fun _ => h.2 rfl⟩
  | constant v =>
    rw [holds_constant (by rw [he]; exact hrole), he] at h
    rw [holds_constant hrole]
    exact ⟨h.1, fun _ => h.2 rfl⟩

/-- Storing a slot writes its memory only, and then memory has the value. -/
theorem Tracks.runs_entrySyncCode (h : f.Tracks dead m env) (hl : f.Live dead s) :
    ∃ m', Runs (f.entrySyncCode s) m m' ∧ m.OnlySlot m' s ∧
      ∀ f' : Frame, f'.entry s = (f.entry s).synced →
        (∀ b, (f'.entry b).type = (f.entry b).type) → f'.Holds m' env s := by
  have hs : s < m.slots.size := Nat.lt_of_lt_of_le hl.1 h.room
  have hh := h.holds s hl
  simp only [entrySyncCode]
  split
  case isTrue hsync =>
    -- nothing is stored, and the flags were right
    refine ⟨m, .nil m, .refl m s, fun f' he htype => ?_⟩
    have hsame : f'.entry s = f.entry s := by
      simp only [Entry.isSynced, Bool.and_eq_true] at hsync
      rw [he, Entry.synced]
      cases hentry : f.entry s
      simp_all
    exact hh.congr hsame rfl (fun b _ => ⟨rfl, htype b⟩) rfl (fun _ _ => rfl) fun _ _ => rfl
  case isFalse =>
    cases hrole : (f.entry s).role with
    | constant v =>
      have hsrc : m.source? (.constant v.toCell) = some v.toCell := rfl
      refine ⟨_, runs_singleton (executes_storeValue hsrc hs), .modifySlot _ _ _, ?_⟩
      intro f' he _
      rw [holds_constant (by rw [he]; exact hrole), he]
      refine ⟨((holds_constant hrole).1 hh).1, fun _ =>
        ⟨v.toCell, v, ?_, Cell.reads_toCell v, ?_⟩⟩
      · simp only [getElem?_modifySlot, if_true, Array.getElem?_eq_getElem hs,
          Option.map_some]
      · change ((f.entry s).type).Fits v v
        rw [h.sound.constant s v hl hrole]
        exact KnownType.fits_ofValue v
    | copyOf b =>
      obtain ⟨hlt, hdead, hown⟩ := h.sound.copy s b hl hrole
      have hlb : f.Live dead b := ⟨Nat.lt_trans hlt hl.1, hdead⟩
      have hb := (holds_own hown).1 (h.holds b hlb)
      obtain ⟨m', hr, hm, hst⟩ := hb.runs_copySyncCode (h.sound.freg_type b · hlb)
        (Nat.ne_of_lt hlt) hs
      refine ⟨m', hr, hm, fun f' he htype => ?_⟩
      have henv := ((holds_copy hrole).1 hh).1
      rw [holds_copy (by rw [he]; exact hrole), htype, henv]
      exact ⟨rfl, fun _ => hst⟩
    | own =>
      have ho := (holds_own hrole).1 hh
      cases hdata : (f.entry s).data with
      | freg r =>
        obtain ⟨d, hd, hv, -⟩ := (Entry.owns_freg hdata).1 ho
        obtain ⟨m', hr, hm, hst⟩ := runs_storeDouble hd hv hs
        refine ⟨m', hr, hm, fun f' he _ => ?_⟩
        rw [holds_own (by rw [he]; exact hrole), he,
          Entry.owns_freg (e := (f.entry s).synced) hdata]
        exact ⟨d, (hm.freg r).trans hd, hv, fun _ => hst⟩
      | _ =>
        have hne : ∀ r, (f.entry s).data ≠ .freg r := by simp [hdata]
        obtain ⟨c, u, hw, hu⟩ := (Entry.owns_words hne).1 ho
        obtain ⟨m', hr, hm, hc⟩ := hw.runs_ownSyncCode hs
        refine ⟨m', hr, hm, fun f' he _ => ?_⟩
        have hw' :=
          (hw.of_onlySlot hm (.inl (by rw [hc]; rfl)) (.inl (by rw [hc]; rfl))).synced hc
        rw [holds_own (by rw [he]; exact hrole), he,
          Entry.owns_words (e := (f.entry s).synced) hne]
        exact ⟨c, u, hw', hu⟩

/-- Writing the memory of one slot disturbs no other. -/
theorem Tracks.holds_of_onlySlot (h : f.Tracks dead m env) (hm : m.OnlySlot m' s) {s' : Slot}
    (hl : f.Live dead s') (hne : s' ≠ s) (he : f'.entry s' = f.entry s')
    (htype : ∀ b, (f'.entry b).type = (f.entry b).type) : f'.Holds m' env s' :=
  (h.holds s' hl).congr he rfl (fun b _ => ⟨rfl, htype b⟩) (hm.slot s' hne)
    (fun r _ => hm.reg r) fun r _ => hm.freg r

/-- An operation that only writes memory keeps every register. -/
theorem Keeps.of_onlyMemory {n : Nat} (hm : m.OnlyMemory m' n) (hregs : f'.regs = f.regs) :
    f.Keeps m f' m' where
  binding r _ := by rw [hregs]
  contents r _ := hm.reg r
  pinned r hr := by rwa [hregs]
  fbinding r _ := by rw [hregs]
  fcontents r _ := hm.freg r
  fpinned r hr := by rwa [hregs]
  world := hm.world

/-! ### Every slot -/

theorem type_mapLive_synced (hs : f.sp ≤ f.entries.size) (s : Slot) :
    ((f.mapLive synced).entry s).type = (f.entry s).type := by
  rw [entry_mapLive f _ s hs]
  split <;> rfl

/-- The slots are stored one after the other, and what has been stored stays. -/
theorem Tracks.runs_syncCode (h : f.Tracks none m env) :
    ∃ m', Runs f.syncCode m m' ∧ m.OnlyMemory m' f.sp ∧ f.Tracks none m' env ∧
      (f.mapLive synced).Tracks none m' env := by
  have hent := fun s => entry_mapLive f synced s h.sound.sp_le
  have htype := type_mapLive_synced h.sound.sp_le
  have key : ∀ k, k ≤ f.sp → ∃ m', Runs ((List.range k).flatMap f.entrySyncCode) m m' ∧
      m.OnlyMemory m' f.sp ∧ f.Tracks none m' env ∧
      ∀ s, s < k → (f.mapLive synced).Holds m' env s := by
    intro k
    induction k with
    | zero =>
      intro _
      exact ⟨m, .nil m, .refl m f.sp, h, fun s hs => absurd hs (Nat.not_lt_zero s)⟩
    | succ k ih =>
      intro hk
      obtain ⟨m₁, hr₁, hm₁, ht₁, hst₁⟩ := ih (by omega)
      have hl := live_of_lt hk
      obtain ⟨m₂, hr₂, hm₂, hst₂⟩ := ht₁.runs_entrySyncCode hl
      have hk' := hst₂ _ (by rw [hent, if_pos hl.1]) htype
      refine ⟨m₂, ?_, hm₁.trans (hm₂.onlyMemory hk), ⟨h.sound, ?_, ?_⟩, ?_⟩
      · rw [List.range_succ, List.flatMap_append]
        simpa using runs_append hr₁ hr₂
      · exact hm₂.world.size ▸ ht₁.room
      · intro s hs
        by_cases hsk : s = k
        · subst hsk
          exact hk'.of_synced (by rw [hent, if_pos hl.1]) htype
        · exact ht₁.holds_of_onlySlot hm₂ hs hsk rfl fun _ => rfl
      · intro s hs
        by_cases hsk : s = k
        · subst hsk
          exact hk'
        · refine (hst₁ s (by omega)).congr rfl rfl (fun b _ => ⟨rfl, rfl⟩)
            (hm₂.slot s hsk) (fun r _ => hm₂.reg r) fun r _ => hm₂.freg r
  obtain ⟨m', hr, hm, ht, hst⟩ := key f.sp (Nat.le_refl _)
  refine ⟨m', hr, hm, ht, ?_, ht.room, fun s hs => hst s hs.1⟩
  refine h.sound.congr rfl (by simp [mapLive]) rfl ?_ htype ?_ ?_ <;>
  · intro s
    rw [hent]
    split <;> rfl

end Frame

/-! ### Tracker operations -/

namespace FrameM

variable {f : Frame} {dead : Option Slot} {m : Machine} {env : Slot → Value} {s : Slot}

/-- Bringing the memory of a slot up to date. -/
theorem syncEntry_ensures (h : f.Tracks dead m env) (hl : f.Live dead s) :
    Ensures (syncEntry s) f m fun _ f' m' =>
      f.Loads dead m env f' m' ∧ f' = f.update s synced ∧ m.OnlySlot m' s := by
  obtain ⟨m', hr, hm, hholds⟩ := h.runs_entrySyncCode hl
  have hsize : s < f.entries.size := Nat.lt_of_lt_of_le hl.1 h.sound.sp_le
  have hent : ∀ s', (f.update s synced).entry s' =
      if s = s' then (f.entry s').synced else f.entry s' := by
    intro s'
    simp only [entry_update, hsize, and_true]
  have htype : ∀ s', ((f.update s synced).entry s').type = (f.entry s').type := by
    intro s'
    rw [hent]
    split <;> rfl
  unfold syncEntry
  apply ensures_look
  apply ensures_bind
  apply ensures_emitAll hr
  apply ensures_update
  refine ⟨⟨⟨?_, ?_, ?_⟩, ?_, .of_onlyMemory (hm.onlyMemory hl.1) rfl⟩, rfl, hm⟩
  · refine h.sound.congr rfl (size_update f s _) rfl ?_ htype ?_ ?_ <;>
    · intro s'
      rw [hent]
      split <;> rfl
  · exact hm.world.size ▸ h.room
  · intro s' hl'
    by_cases hss : s = s'
    · subst hss
      exact hholds _ (by rw [hent, if_pos rfl]) htype
    · exact h.holds_of_onlySlot hm hl' (Ne.symm hss) (by rw [hent, if_neg hss]) htype
  · constructor <;> first | rfl | skip
    all_goals
      intro s'
      rw [hent]
      split <;> rfl

end FrameM

/-! ### Consistency -/

namespace Frame

/-- With a sound frame nothing is wrong but registers that have not been given back. -/
theorem Sound.fault?_eq {f : Frame} (h : f.Sound none) : f.fault? = f.liveFault? := by
  have hslots : ((List.range f.sp).findSome? fun s =>
      ((f.copyFault? s).or (f.dataFault? s)).or (f.tagFault? s)) = none := by
    rw [List.findSome?_eq_none_iff]
    intro s hs
    have hl : f.Live none s := ⟨List.mem_range.1 hs, by simp⟩
    have hcopy : f.copyFault? s = none := by
      unfold copyFault? copyOf?
      cases hrole : (f.entry s).role with
      | own | constant v => rfl
      | copyOf b =>
        obtain ⟨hlt, -, hown⟩ := h.copy s b hl hrole
        simp only [isCopy, copyOf?, hown, Option.isSome_none, Bool.false_eq_true, or_false]
        exact if_neg (Nat.not_le_of_lt hlt)
    have hdata : f.dataFault? s = none := by
      unfold dataFault?
      split
      · rfl
      · next r hr => exact if_pos ((h.data_iff s r).2 ⟨hl, hr⟩)
      · next r hr => exact if_pos ((h.fdata_iff s r).2 ⟨hl, hr⟩)
    have htag : f.tagFault? s = none := by
      unfold tagFault?
      split
      · rfl
      · next r hr => exact if_pos ((h.tag_iff s r).2 ⟨hl, hr⟩)
    rw [hcopy, hdata, htag]
    rfl
  rw [fault?, hslots, Option.or_none]

end Frame

end FastPath
