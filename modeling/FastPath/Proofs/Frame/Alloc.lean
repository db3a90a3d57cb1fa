import FastPath.Proofs.Frame.Sync

/-!
# Allocating registers keeps the frame

Handing out a register may evict one: the tracker then stores what memory lacks and forgets
the register. No value changes, and no register that somebody relies on is touched: those
are the temporaries and the pinned registers, here called held.

## Main results

* `Frame.Loads`: what every operation satisfies that only moves values around.
* `FrameM.alloc_ensures`, `FrameM.allocDouble_ensures`: allocation is one of them.
-/

namespace FastPath

open Frame RegisterFile Entry

variable {D : Cell.Discipline}

namespace FrameM

variable {f : Frame} {dead : Option Slot} {m : Machine} {env : Slot → Value}

/-! ### Evicting -/

/-- The entry of a slot whose payload has been evicted. -/
def evictedData (e : Entry) : Entry :=
  { e with
    data := .memory
    dataSynced := true
    tagSynced := e.tagSynced || e.type.tag?.isSome }

/-- The code that evicts a payload. -/
def evictDataCode (s : Slot) (e : Entry) : List Inst :=
  dataSyncCode s e ++ if e.type.tag?.isSome then tagSyncCode s e else []

variable {r : Reg} {s : Slot} {b : Binding}

/-- Evicting a payload stores it, and the tag if the type implies it. -/
theorem evictData_run (hs : s < f.entries.size) (hdata : (f.entry s).data = .reg r)
    (code : Array Inst) :
    evictData r s ⟨f, code⟩ = .ok () ⟨f.setEntry s (evictedData (f.entry s)),
      (evictDataCode s (f.entry s)).foldl Array.push code⟩ := by
  have hent : ∀ e, (f.setEntry s e).entry s = e := by
    intro e
    rw [entry_setEntry, if_pos ⟨rfl, hs⟩]
  simp only [evictDataCode, dataSyncCode, tagSyncCode, evictedData, evictData,
    bind_run, frame_run]
  cases hds : (f.entry s).dataSynced <;> cases ht : (f.entry s).type.tag? <;>
    cases hts : (f.entry s).tagSynced <;>
    simp [hdata, update_eq_setEntry, bind_run, update_run, emit_run,
      setEntry_setEntry, hent, hts]

/-- Evicting a payload leaves both words where the changed entry has them. -/
theorem runs_evictDataCode {e : Entry} {c : Cell} (hw : e.Words m s c) (hs : s < m.slots.size) :
    ∃ m', Runs (evictDataCode s e) m m' ∧ m.OnlySlot m' s ∧
      (evictedData e).Words m' s c := by
  obtain ⟨m₁, hr₁, hm₁, hpay₁, htag₁⟩ := hw.runs_dataSyncCode hs
  have hw₁ := hw.of_onlySlot hm₁ (.inr htag₁) (.inl hpay₁)
  obtain ⟨m₂, hr₂, hm₂, htag₂, hpay₂⟩ := hw₁.runs_tagSyncCode (hm₁.world.size ▸ hs)
  have hw₂ := hw₁.of_onlySlot hm₂ (.inl htag₂) (.inr hpay₂)
  cases ht : e.type.tag? with
  | none =>
    refine ⟨m₁, ?_, hm₁, ?_⟩
    · simpa [evictDataCode, ht] using hr₁
    · obtain ⟨h₁, h₂, h₃, h₄⟩ := hw₁
      constructor <;> simp_all [evictedData, tagWord?, payloadWord?]
  | some t =>
    refine ⟨m₂, ?_, hm₁.trans hm₂, ?_⟩
    · simpa [evictDataCode, ht] using runs_append hr₁ hr₂
    · obtain ⟨h₁, h₂, h₃, h₄⟩ := hw₂
      constructor <;> simp_all [evictedData, tagWord?, payloadWord?]

/-- Evicting a payload. -/
theorem evict_data_ensures (h : f.Tracks dead m env) (hr : f.regs.binding r = .data s)
    (hpin : f.regs.isPinned r = false) :
    Ensures (evict r) f m fun _ f' m' =>
      f.Loads dead m env f' m' ∧ f.Unloads f' ∧ f'.regs.binding r = .free ∧
        f'.regs.isPinned r = false := by
  obtain ⟨hl, hdata, hown⟩ := h.sound.own_of_data hr
  have hs : s < f.entries.size := Nat.lt_of_lt_of_le hl.1 h.sound.sp_le
  have hne : ∀ x, (f.entry s).data ≠ .freg x := by simp [hdata]
  obtain ⟨c, u, hw, hu⟩ := (owns_words hne).1 ((holds_own hown).1 (h.holds s hl))
  obtain ⟨m', hruns, hm, hw'⟩ := runs_evictDataCode hw (Nat.lt_of_lt_of_le hl.1 h.room)
  have hlt := lt_of_binding hr rfl
  unfold evict
  apply ensures_look
  simp only [hr]
  apply ensures_bind
  apply ensures_of_ok (evictData_run hs hdata) hruns
  apply ensures_update
  obtain ⟨-, -, -, -, -, htagType, hdataIff, htagIff, hfdataIff, hftag⟩ := h.sound
  refine ⟨(Loads.refl h).move hl hown ⟨hown, rfl, rfl, rfl⟩
    ⟨?_, ?_, ?_, ?_, ?_, hftag⟩ ?_ ?_ ?_ ?_ hm.world hm.slot ?_ ?_ ?_, ⟨?_, ?_, ?_, ?_⟩, ?_, ?_⟩
  all_goals
    grind [evictedData, Held, FHeld, hm.reg, hm.freg,
      owns_words]

/-- The entry of a slot whose tag has been evicted. -/
def evictedTag (e : Entry) : Entry := { e with tag := none, tagSynced := true }

theorem evictTag_run (htag : (f.entry s).tag = some r) (htype : (f.entry s).type = .unknown)
    (code : Array Inst) :
    evictTag r s ⟨f, code⟩ = .ok () ⟨f.setEntry s (evictedTag (f.entry s)),
      (tagSyncCode s (f.entry s)).foldl Array.push code⟩ := by
  simp only [tagSyncCode, evictedTag, evictTag, bind_run, frame_run]
  cases hts : (f.entry s).tagSynced <;>
    simp [htag, htype, KnownType.tag?, update_eq_setEntry, bind_run, update_run, emit_run]

variable (h : f.Tracks dead m env)
include h

/-- Evicting a tag. -/
theorem evict_tag_ensures (hr : f.regs.binding r = .tag s) (hpin : f.regs.isPinned r = false) :
    Ensures (evict r) f m fun _ f' m' =>
      f.Loads dead m env f' m' ∧ f.Unloads f' ∧ f'.regs.binding r = .free ∧
        f'.regs.isPinned r = false := by
  obtain ⟨hl, htag, hown⟩ := h.sound.own_of_tag hr
  have htype := h.sound.tag_type s r hl htag
  have hne : ∀ x, (f.entry s).data ≠ .freg x := by
    intro x hx
    rw [h.sound.freg_type s x hl hx] at htype
    cases htype
  obtain ⟨c, u, hw, hu⟩ := (owns_words hne).1 ((holds_own hown).1 (h.holds s hl))
  obtain ⟨m', hruns, hm, htag', hpay'⟩ := hw.runs_tagSyncCode (Nat.lt_of_lt_of_le hl.1 h.room)
  have hw' : (evictedTag (f.entry s)).Words m' s c := by
    obtain ⟨h₁, h₂, h₃, h₄⟩ := hw.of_onlySlot hm (.inl htag') (.inr hpay')
    constructor <;> simp_all [evictedTag, tagWord?, payloadWord?, KnownType.tag?]
  have hlt := lt_of_binding hr rfl
  unfold evict
  apply ensures_look
  simp only [hr]
  apply ensures_bind
  apply ensures_of_ok (evictTag_run htag htype) hruns
  apply ensures_update
  obtain ⟨-, -, -, -, -, -, hdataIff, htagIff, hfdataIff, hftag⟩ := h.sound
  refine ⟨(Loads.refl h).move hl hown ⟨hown, rfl, rfl, rfl⟩
    ⟨?_, ?_, ?_, ?_, ?_, hftag⟩ ?_ ?_ ?_ ?_ hm.world hm.slot ?_ ?_ ?_, ⟨?_, ?_, ?_, ?_⟩, ?_, ?_⟩
  all_goals
    grind [evictedTag, Held, FHeld, hm.reg, hm.freg,
      owns_words]

/-- Evicting a register that holds part of a slot. -/
theorem evict_ensures (hr : (f.regs.binding r).slot?.isSome) (hpin : f.regs.isPinned r = false) :
    Ensures (evict r) f m fun _ f' m' =>
      f.Loads dead m env f' m' ∧ f.Unloads f' ∧ f'.regs.binding r = .free ∧
        f'.regs.isPinned r = false := by
  cases hb : f.regs.binding r with
  | free | temp => simp [hb, Binding.slot?] at hr
  | data s => exact evict_data_ensures h hb hpin
  | tag s => exact evict_tag_ensures h hb hpin

/-- Evicting a double register that holds a slot. -/
theorem evictDouble_ensures {r : FReg} (hr : f.regs.fbinding r = .data s)
    (hpin : f.regs.isFPinned r = false) :
    Ensures (evictDouble r) f m fun _ f' m' =>
      f.Loads dead m env f' m' ∧ f.Unloads f' ∧ f'.regs.fbinding r = .free ∧
        f'.regs.isFPinned r = false := by
  obtain ⟨hl, hdata, hown⟩ := h.sound.own_of_fdata hr
  have htype := h.sound.freg_type s r hl hdata
  have hlt := lt_of_fbinding hr rfl
  obtain ⟨d, hd, hv, hst⟩ := (owns_freg hdata).1 ((holds_own hown).1 (h.holds s hl))
  -- once memory has the number, the entry may refer to memory
  have key : ∀ m', m.OnlySlot m' s → m'.Has .double s (env s) →
      Ensures (update fun f => ((f.update s fun e => { e with data := .memory }.synced).mapRegs
        (·.fbind r .free)).bumpGeneration) f m' fun _ f' m' =>
        f.Loads dead m env f' m' ∧ f.Unloads f' ∧ f'.regs.fbinding r = .free ∧
        f'.regs.isFPinned r = false := by
    rintro m' hm ⟨c, u, hc, hu, hfit⟩
    have howns : ({ f.entry s with data := .memory }.synced).Owns m' s (env s) := by
      rw [owns_words (by simp [synced])]
      have htag : (f.entry s).tag = none := by
        cases htag : (f.entry s).tag with
        | none => rfl
        | some x =>
          have := h.sound.tag_type s x hl htag
          simp [htype] at this
      refine ⟨c, u, ?_, hu, by simpa [synced, htype] using hfit⟩
      constructor <;>
        simp [synced, tagWord?, payloadWord?, htype, htag, KnownType.tag?, hc]
    apply ensures_update
    simp only [update_eq_setEntry]
    obtain ⟨-, -, -, -, -, htagType, hdataIff, htagIff, hfdataIff, hftag⟩ := h.sound
    refine ⟨(Loads.refl h).move hl hown ⟨hown, rfl, rfl, rfl⟩
      ⟨?_, ?_, ?_, ?_, ?_, ?_⟩ ?_ ?_ ?_ ?_ hm.world hm.slot ?_ ?_ howns, ⟨?_, ?_, ?_, ?_⟩, ?_, ?_⟩
    all_goals
      grind [synced, Held, FHeld, hm.reg, hm.freg]
  unfold evictDouble
  apply ensures_look
  simp only [hr]
  apply ensures_look
  split
  case isTrue hsync => exact key m (.refl m s) (hst hsync)
  case isFalse =>
    obtain ⟨m', hruns, hm, hst'⟩ := runs_storeDouble hd hv (Nat.lt_of_lt_of_le hl.1 h.room)
    apply ensures_bind
    exact ensures_of_ok (l := [.storeValue s (.double r)]) (fun code => emit_run _ ⟨f, code⟩)
      hruns (key m' hm hst')

/-! ### Temporaries -/

/-- A register that belongs to no slot may change hands among its other users. -/
theorem loads_bind (hr : (f.regs.binding r).slot? = none) (hb : b.slot? = none)
    (hheld : ¬ f.regs.Held r) : f.Loads dead m env (f.mapRegs (·.bind r b)) m := by
  refine ⟨h.of_regs ?_ fun _ => .inl rfl, .mapRegs f _, ?_⟩
  · grind
  · constructor <;> grind [Machine.SameWorld.refl, Held]

/-- Allocation hands out a register that nobody relied on. -/
theorem alloc_ensures :
    Ensures alloc f m fun r f' m' => f.Loads dead m env f' m' ∧ f.Unloads f' ∧
      f'.regs.binding r = .temp ∧ ¬ f.regs.Held r := by
  unfold alloc
  apply ensures_look
  split
  · next r regs htake =>
    obtain ⟨hlt, hfree, hpin, rfl⟩ := take?_eq_some htake
    have hheld : ¬ f.regs.Held r := by simp [Held, hfree, hpin]
    apply ensures_regs
    apply ensures_pure
    refine ⟨loads_bind h (by rw [hfree]; rfl) rfl hheld, .mapRegs f _, ?_, hheld⟩
    simp [hlt]
  · split
    · exact ensures_throw
    · next r hvictim =>
      obtain ⟨hlt, hslot, hpin⟩ := victim?_eq_some hvictim
      have hheld : ¬ f.regs.Held r := by
        rintro (ht | hp)
        · rw [ht] at hslot
          cases hslot
        · rw [hpin] at hp
          cases hp
      apply ensures_bind
      apply (evict_ensures h hslot hpin).mono
      rintro - f₁ m₁ ⟨hloads, hun, hfree, hpin₁⟩
      have hheld₁ : ¬ f₁.regs.Held r := by simp [Held, hfree, hpin₁]
      apply ensures_regs
      apply ensures_pure
      refine ⟨hloads.trans (loads_bind hloads.tracks (by rw [hfree]; rfl) rfl hheld₁),
        hun.trans (.mapRegs f₁ _), ?_, hheld⟩
      simp [hlt]

theorem loads_fbind {r : FReg} (hr : (f.regs.fbinding r).slot? = none) (hb : b.slot? = none)
    (hheld : ¬ f.regs.FHeld r) : f.Loads dead m env (f.mapRegs (·.fbind r b)) m := by
  refine ⟨h.of_regs (fun _ => .inl rfl) ?_, .mapRegs f _, ?_⟩
  · grind
  · constructor <;> grind [Machine.SameWorld.refl, FHeld]

/-- Allocating a double register changes no value. -/
theorem allocDouble_ensures :
    Ensures allocDouble f m fun r f' m' => f.Loads dead m env f' m' ∧ f.Unloads f' ∧
      f'.regs.fbinding r = .temp ∧ ¬ f.regs.FHeld r := by
  unfold allocDouble
  apply ensures_look
  split
  · next r regs htake =>
    obtain ⟨hlt, hfree, hpin, rfl⟩ := ftake?_eq_some htake
    have hheld : ¬ f.regs.FHeld r := by simp [FHeld, hfree, hpin]
    apply ensures_regs
    apply ensures_pure
    refine ⟨loads_fbind h (by rw [hfree]; rfl) rfl hheld, .mapRegs f _, ?_, hheld⟩
    simp [hlt]
  · split
    · exact ensures_throw
    · next r hvictim =>
      obtain ⟨hlt, hslot, hpin⟩ := fvictim?_eq_some hvictim
      obtain ⟨s, hs⟩ : ∃ s, f.regs.fbinding r = .data s := by
        cases hb : f.regs.fbinding r <;> simp [hb, Binding.isData] at hslot ⊢
      have hheld : ¬ f.regs.FHeld r := by simp [FHeld, hs, hpin]
      apply ensures_bind
      apply (evictDouble_ensures h hs hpin).mono
      rintro - f₁ m₁ ⟨hloads, hun, hfree, hpin₁⟩
      have hheld₁ : ¬ f₁.regs.FHeld r := by simp [FHeld, hfree, hpin₁]
      apply ensures_regs
      apply ensures_pure
      refine ⟨hloads.trans (loads_fbind hloads.tracks (by rw [hfree]; rfl) rfl hheld₁),
        hun.trans (.mapRegs f₁ _), ?_, hheld⟩
      simp [hlt]

/-- Taking a particular register. -/
theorem take_ensures (hlt : r.index < Reg.count) :
    Ensures (take r) f m fun r' f' m' => r' = r ∧ f.Loads dead m env f' m' ∧
      f'.regs.binding r = .temp ∧ ¬ f.regs.Held r := by
  have key : ∀ f₁ m₁, f.Loads dead m env f₁ m₁ → f₁.regs.binding r = .free →
      f₁.regs.isPinned r = false → ¬ f.regs.Held r →
      Ensures (do
        updateRegs (·.bind r .temp)
        pure r) f₁ m₁ fun r' f' m' => r' = r ∧ f.Loads dead m env f' m' ∧
          f'.regs.binding r = .temp ∧ ¬ f.regs.Held r := by
    intro f₁ m₁ hloads hfree hpin₁ hheld
    have hheld₁ : ¬ f₁.regs.Held r := by simp [Held, hfree, hpin₁]
    apply ensures_regs
    apply ensures_pure
    refine ⟨rfl, hloads.trans (loads_bind hloads.tracks (by rw [hfree]; rfl) rfl hheld₁), ?_, hheld⟩
    simp [hlt]
  unfold take
  apply ensures_look
  cases hpin : f.regs.isPinned r with
  | true =>
    split
    · exact ensures_fail
    · simp only [if_true]
      exact ensures_bind ensures_fail
  | false =>
    split
    · exact ensures_fail
    · next hnt =>
      have hheld : ¬ f.regs.Held r := by
        rintro (ht | hp)
        · exact hnt ht
        · rw [hpin] at hp
          cases hp
      simp only [Bool.false_eq_true, if_false]
      split
      · next hslot =>
        apply ensures_bind
        apply (evict_ensures h hslot hpin).mono
        rintro - f₁ m₁ ⟨hloads, hun, hfree, hpin₁⟩
        exact key f₁ m₁ hloads hfree hpin₁ hheld
      · next hslot =>
        refine key f m (.refl h) ?_ hpin hheld
        cases hb : f.regs.binding r <;> simp_all [Binding.slot?]

/-- Giving back a temporary. -/
theorem free_ensures :
    Ensures (free r) f m fun _ f' m' => f.regs.binding r = .temp ∧ m' = m ∧
      f' = f.mapRegs (·.bind r .free) ∧ f'.Tracks dead m env := by
  unfold free
  apply ensures_look
  split
  · next ht =>
    apply ensures_updateRegs
    refine ⟨ht, rfl, rfl, h.of_regs (fun r' => ?_) fun _ => .inl rfl⟩
    grind [Binding.slot?]
  · exact ensures_bind ensures_fail

/-- Giving back a double temporary. -/
theorem freeDouble_ensures {r : FReg} :
    Ensures (freeDouble r) f m fun _ f' m' => f.regs.fbinding r = .temp ∧ m' = m ∧
      f' = f.mapRegs (·.fbind r .free) ∧ f'.Tracks dead m env := by
  unfold freeDouble
  apply ensures_look
  split
  · next ht =>
    apply ensures_updateRegs
    refine ⟨ht, rfl, rfl, h.of_regs (fun _ => .inl rfl) fun r' => ?_⟩
    grind [Binding.slot?]
  · exact ensures_bind ensures_fail

end FrameM

end FastPath
