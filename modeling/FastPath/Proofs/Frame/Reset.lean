import FastPath.Proofs.Frame.Store

/-!
# Letting go of registers

A call keeps no register, so the values of all slots are stored ahead of it, and the frame
then has every slot in memory. At the start of a block the frame also forgets what it knows
about the operand stack.

Values that are stored may change their representation: a number in a double register is
stored as an integer where it is one. The slots then hold the same values and not always
equal ones.
-/

namespace FastPath

open Frame RegisterFile Entry

variable {D : Cell.Discipline}

theorem Machine.Has.of_slots {m m' : Machine} {t : KnownType} {s : Slot} {v : Value}
    (h : m.Has t s v) (hm : m'.slots = m.slots) : m'.Has t s v := by
  unfold Machine.Has
  rw [hm]
  exact h

namespace Frame

variable {f : Frame} {m : Machine} {env : Slot → Value} {s : Slot}

/-- The memory of every slot is up to date. -/
def Synced (f : Frame) : Prop := ∀ s, s < f.sp → (f.entry s).isSynced

theorem synced_mapLive (h : f.sp ≤ f.entries.size) : (f.mapLive synced).Synced := by
  intro s hs
  rw [entry_mapLive f _ s h, if_pos (show s < f.sp from hs)]
  rfl

/-- The memory of a slot that is up to date has its value. -/
theorem Tracks.has_of_isSynced (h : f.Tracks none m env) (hs : s < f.sp)
    (hsync : (f.entry s).isSynced) : m.Has (f.knownType s) s (env s) := by
  have hl := live_of_lt hs
  have hh := h.holds s hl
  cases hrole : (f.entry s).role with
  | own =>
    have hb := backing_of_own hrole
    rw [knownType, backingEntry, hb]
    exact h.stores hl hrole hsync
  | copyOf b =>
    have hb := backing_of_copy hrole
    rw [knownType, backingEntry, hb]
    exact ((holds_copy hrole).1 hh).2 hsync
  | constant v =>
    have hb := backing_of_constant hrole
    obtain ⟨henv, hst⟩ := (holds_constant hrole).1 hh
    rw [knownType, backingEntry, hb, henv]
    exact hst hsync

/-- The memory of a frame that is up to date has the values. -/
theorem Tracks.has_of_synced (h : f.Tracks none m env) (hsync : f.Synced) (hs : s < f.sp) :
    m.Has (f.knownType s) s (env s) :=
  h.has_of_isSynced hs (hsync s hs)

/-- A frame with every slot in memory and no register bound. -/
theorem sound_of_memory (hsp : f.sp ≤ f.entries.size)
    (hmem : ∀ s, f.Live none s → (f.entry s).data = .memory ∧ (f.entry s).tag = none)
    (hcopy : ∀ s b, f.Live none s → (f.entry s).role = .copyOf b →
      b < s ∧ (f.entry b).role = .own)
    (hconst : ∀ s v, f.Live none s → (f.entry s).role = .constant v →
      (f.entry s).type = .ofValue v)
    (hregs : ∀ r, f.regs.binding r = .free) (hfregs : ∀ r, f.regs.fbinding r = .free) :
    f.Sound none where
  sp_le := hsp
  copy s b hl hrole := ⟨(hcopy s b hl hrole).1, by simp, (hcopy s b hl hrole).2⟩
  bare s hl _ := hmem s hl
  constant := hconst
  freg_type s r hl hr := by simp [(hmem s hl).1] at hr
  tag_type s r hl hr := by simp [(hmem s hl).2] at hr
  data_iff s r := by
    simp only [hregs, reduceCtorEq, false_iff, not_and]
    intro hl
    simp [(hmem s hl).1]
  tag_iff s r := by
    simp only [hregs, reduceCtorEq, false_iff, not_and]
    intro hl
    simp [(hmem s hl).2]
  fdata_iff s r := by
    simp only [hfregs, reduceCtorEq, false_iff, not_and]
    intro hl
    simp [(hmem s hl).1]
  ftag s r := by simp [hfregs]

/-- The frame with every slot in memory. -/
def killed (f : Frame) : Frame :=
  ((f.mapLive withoutRegs).mapRegs (·.reset)).bumpGeneration

theorem entry_killed (h : f.sp ≤ f.entries.size) (s : Slot) :
    f.killed.entry s = if s < f.sp then (f.entry s).withoutRegs else f.entry s :=
  entry_mapLive f _ s h

/-- A frame that is up to date can lose its registers: any machine with the same memory has
the values. -/
theorem Tracks.kill (h : f.Tracks none m env) (hsync : f.Synced) {m' : Machine}
    (hm : m'.slots = m.slots) : f.killed.Tracks none m' env := by
  have hent : ∀ s, f.Live none s → f.killed.entry s = (f.entry s).withoutRegs := by
    intro s hl
    rw [entry_killed h.sound.sp_le, if_pos hl.1]
  have hbelow : ∀ s b, f.Live none s → (f.entry s).role = .copyOf b → f.Live none b := by
    intro s b hl hb
    exact ⟨Nat.lt_trans (h.sound.copy s b hl hb).1 hl.1, by simp⟩
  refine ⟨sound_of_memory ?_ ?_ ?_ ?_ (fun r => binding_reset ..)
    (fun r => fbinding_reset ..), hm ▸ h.room, ?_⟩
  · simpa [killed, mapLive] using h.sound.sp_le
  · intro s hl
    rw [hent s hl]
    exact ⟨rfl, rfl⟩
  · intro s b hl hrole
    rw [hent s hl] at hrole
    obtain ⟨hlt, -, ho⟩ := h.sound.copy s b hl hrole
    exact ⟨hlt, by rw [hent b (hbelow s b hl hrole)]; exact ho⟩
  · intro s v hl hrole
    rw [hent s hl] at hrole ⊢
    exact h.sound.constant s v hl hrole
  · intro s hl
    have hl' : f.Live none s := hl
    have hh := h.holds s hl'
    cases hrole : (f.entry s).role with
    | own =>
      obtain ⟨c, u, hc, hu, hfit⟩ := h.stores hl' hrole (hsync s hl'.1)
      rw [holds_own (by rw [hent s hl']; exact hrole), hent s hl']
      exact owns_inMemory rfl rfl (hm ▸ hc) hu hfit (h.describes hl' hrole)
    | copyOf b =>
      have hlb := hbelow s b hl' hrole
      rw [holds_copy (b := b) (by rw [hent s hl']; exact hrole), hent s hl', hent b hlb]
      obtain ⟨henv, hst⟩ := (holds_copy hrole).1 hh
      exact ⟨henv, fun _ => (hst (hsync s hl'.1)).of_slots hm⟩
    | constant v =>
      rw [holds_constant (v := v) (by rw [hent s hl']; exact hrole), hent s hl']
      obtain ⟨henv, hst⟩ := (holds_constant hrole).1 hh
      exact ⟨henv, fun _ => (hst (hsync s hl'.1)).of_slots hm⟩

/-! ### Canonical frames -/

/-- A frame with every slot owning a value in memory. -/
theorem sound_of_inMemory (types : Slot → TypeSet)
    (hent : ∀ s, s < f.sp → f.entry s = .inMemory (types s)) (hsp : f.sp ≤ f.entries.size)
    (hregs : ∀ r, f.regs.binding r = .free) (hfregs : ∀ r, f.regs.fbinding r = .free) :
    f.Sound none := by
  refine sound_of_memory hsp ?_ ?_ ?_ hregs hfregs
  · intro s hl
    rw [hent s hl.1]
    exact ⟨rfl, rfl⟩
  · intro s b hl hrole
    rw [hent s hl.1] at hrole
    cases hrole
  · intro s v hl hrole
    rw [hent s hl.1] at hrole
    cases hrole

/-- Such a frame describes any memory that fits the types. -/
theorem tracks_of_inMemory (types : Slot → TypeSet)
    (hent : ∀ s, s < f.sp → f.entry s = .inMemory (types s)) (hs : f.Sound none)
    (hroom : f.sp ≤ m.slots.size)
    (hmem : ∀ s c, s < f.sp → m.slots[s]? = some c → c.Reads (env s))
    (htypes : ∀ s, s < f.sp → (types s).knownType.Describes (env s)) :
    f.Tracks none m env := by
  refine ⟨hs, hroom, fun s hl => ?_⟩
  have hlt : s < m.slots.size := Nat.lt_of_lt_of_le hl.1 hroom
  have hc := Array.getElem?_eq_getElem hlt
  have hdesc := htypes s hl.1
  rw [holds_own (by rw [hent s hl.1]; rfl), hent s hl.1]
  exact owns_inMemory rfl rfl hc (hmem s _ hl.1 hc) (.refl hdesc.2) hdesc

/-- The types of the canonical frame. -/
def canonicalTypes (f : Frame) (s : Slot) : TypeSet :=
  if s < f.stackBase then f.baseTypes[s]?.getD .unknown else .unknown

theorem sp_reset (f : Frame) (depth : Nat) : (f.reset depth).sp = f.stackBase + depth := rfl

/-- After a reset every slot is in memory. -/
theorem entry_reset (hbase : f.stackBase ≤ f.entries.size) {depth : Nat}
    (hs : s < f.stackBase + depth) :
    (f.reset depth).entry s = .inMemory (f.canonicalTypes s) := by
  unfold reset entry canonicalTypes
  simp only [Array.getElem?_append, Array.size_mapIdx, Array.getElem?_mapIdx]
  by_cases hlt : s < f.entries.size
  · simp only [hlt, if_true, Array.getElem?_eq_getElem hlt, Option.map_some, Option.getD_some, hs]
    split <;> rfl
  · have hb : ¬s < f.stackBase := fun hb => hlt (Nat.lt_of_lt_of_le hb hbase)
    have hi : s - f.entries.size < f.stackBase + depth - f.entries.size := by lia
    simp only [hlt, if_false, hb, Array.getElem?_replicate, hi, if_true, Option.getD_some]
    rfl

theorem sound_reset (hbase : f.stackBase ≤ f.entries.size) (depth : Nat) :
    (f.reset depth).Sound none := by
  refine sound_of_inMemory f.canonicalTypes (fun _ hs => entry_reset hbase hs) ?_
    (fun r => binding_reset ..) (fun r => fbinding_reset ..)
  simp only [reset, Array.size_append, Array.size_mapIdx, Array.size_replicate]
  omega

/-- At function entry the variables are in memory. -/
theorem entry_new (argCount localCount : Nat) (baseTypes : Array TypeSet) (maxDepth : Nat)
    (hs : s < argCount + localCount) :
    (new argCount localCount baseTypes maxDepth).entry s =
      .inMemory (baseTypes[s]?.getD .unknown) := by
  unfold new entry
  have hlt : s < argCount + localCount + maxDepth + 1 := by lia
  simp only [Array.getElem?_append, Array.getElem?_replicate, Array.size_extract, Array.size_map,
    Nat.sub_zero]
  by_cases hb : s < baseTypes.size
  · have hmin : s < min (argCount + localCount + maxDepth + 1) baseTypes.size := by lia
    simp [hmin, hb]
  · have hmin : ¬s < min (argCount + localCount + maxDepth + 1) baseTypes.size := by lia
    have hi : s - min (argCount + localCount + maxDepth + 1) baseTypes.size <
        argCount + localCount + maxDepth + 1 -
          min (argCount + localCount + maxDepth + 1) baseTypes.size := by lia
    simp only [hmin, if_false, hi, if_true, Array.getElem?_eq_none (Nat.le_of_not_lt hb)]
    rfl

theorem sound_new (argCount localCount : Nat) (baseTypes : Array TypeSet) (maxDepth : Nat) :
    (new argCount localCount baseTypes maxDepth).Sound none := by
  refine sound_of_inMemory (fun s => baseTypes[s]?.getD .unknown)
    (fun _ hs => entry_new argCount localCount baseTypes maxDepth hs) ?_
    (fun r => binding_new r) (fun r => fbinding_new r)
  simp only [new, Array.size_append, Array.size_replicate]
  omega

/-- The frame at function entry describes any memory whose variables have their types. -/
theorem Tracks.new {argCount localCount maxDepth : Nat} {baseTypes : Array TypeSet}
    (hroom : argCount + localCount ≤ m.slots.size)
    (hmem : ∀ s c, s < argCount + localCount → m.slots[s]? = some c → c.Reads (env s))
    (htypes : ∀ s, s < argCount + localCount →
      (baseTypes[s]?.getD .unknown).knownType.Describes (env s)) :
    (new argCount localCount baseTypes maxDepth).Tracks none m env :=
  tracks_of_inMemory (fun s => baseTypes[s]?.getD .unknown)
    (fun _ hs => entry_new argCount localCount baseTypes maxDepth hs) (sound_new ..) hroom hmem
    htypes

end Frame

namespace FrameM

variable {f : Frame} {m : Machine} {env : Slot → Value}

/-- Storing every slot moves no value. -/
theorem syncAll_ensures (h : f.Tracks none m env) :
    Ensures syncAll f m fun _ f' m' =>
      f.Loads none m env f' m' ∧ f' = f.mapLive synced ∧ m.OnlyMemory m' f.sp := by
  obtain ⟨m', hr, hm, -, ht⟩ := h.runs_syncCode
  unfold syncAll
  refine ensures_look (ensures_bind (ensures_emitAll hr (ensures_update ?_)))
  refine ⟨⟨ht, ?_, .of_onlyMemory hm rfl⟩, rfl, hm⟩
  have hent := fun s => entry_mapLive f synced s h.sound.sp_le
  refine ⟨rfl, rfl, rfl, rfl, rfl, rfl, ?_, ?_, ?_, ?_⟩ <;>
  · intro s
    rw [hent]
    split <;> rfl

/-- A frame that may be left holds no temporaries. -/
theorem tempCount_of_liveFault (h : f.liveFault? = none) : f.regs.tempCount = 0 := by
  unfold liveFault? at h
  dsimp only at h
  split at h
  · cases h
  · next hn => exact Nat.eq_zero_of_not_pos fun hp => hn (.inl hp)

theorem ensureNoTemps_ensures :
    Ensures ensureNoTemps f m fun _ f' m' => f' = f ∧ m' = m ∧ f.liveFault? = none := by
  unfold ensureNoTemps
  refine ensures_look ?_
  split
  · exact ensures_fail
  · next hlive => exact ensures_pure ⟨rfl, rfl, hlive⟩

/-- Ahead of a call every slot is in memory and no register is held. -/
theorem syncAndKill_ensures (h : f.Tracks none m env) :
    Ensures syncAndKill f m fun _ f' m' =>
      f'.Tracks none m' env ∧ f.SameView f' ∧ m.OnlyMemory m' f.sp ∧ f.liveFault? = none ∧
      f' = (f.mapLive synced).killed := by
  unfold syncAndKill
  apply ensures_bind
  refine ensureNoTemps_ensures.mono ?_
  rintro - f' m' ⟨rfl, rfl, hlive⟩
  apply ensures_bind
  refine (syncAll_ensures h).mono ?_
  rintro - f₁ m₁ ⟨hloads, rfl, hm⟩
  have hsync := synced_mapLive h.sound.sp_le
  refine ensures_update ⟨hloads.tracks.kill hsync rfl, hloads.view.trans ?_, hm, hlive, rfl⟩
  have hent := entry_killed (f := f'.mapLive synced) hloads.tracks.sound.sp_le
  refine ⟨rfl, rfl, rfl, rfl, rfl, rfl, ?_, ?_, ?_, ?_⟩ <;>
  · intro s
    rw [show ((((f'.mapLive synced).mapLive withoutRegs).mapRegs
      (·.reset)).bumpGeneration) = (f'.mapLive synced).killed from rfl, hent]
    split <;> rfl

end FrameM

end FastPath
