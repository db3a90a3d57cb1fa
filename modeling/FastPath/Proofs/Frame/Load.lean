import FastPath.Proofs.Frame.Stack

/-!
# Loading slots into registers

Binding a slot to a register and copying a slot into a temporary both read the value from
wherever it is. The result is stated in the terms of the caller: a bound register is in the
entry of the slot, a temporary holds the payload, the tag or the number.
-/

namespace FastPath

open Frame RegisterFile Entry Machine

variable {D : Cell.Discipline}

namespace Frame

variable {f : Frame} {dead : Option Slot} {m : Machine} {env : Slot → Value} {s : Slot}

/-- The words of a slot that owns its value. -/
theorem Tracks.words (h : f.Tracks dead m env) (hl : f.Live dead s)
    (hown : (f.entry s).role = .own) (hne : ∀ r, (f.entry s).data ≠ .freg r) :
    ∃ c u, (f.entry s).Words m s c ∧ c.Reads u ∧ (f.entry s).type.Fits u (env s) :=
  (owns_words hne).1 ((holds_own hown).1 (h.holds s hl))

variable {f' f₁ : Frame} {v : Value} {m₁ : Machine}

theorem SameView.live (h : f.SameView f') : f'.Live dead s ↔ f.Live dead s := by
  simp only [Live, h.sp]

/-- A slot that is no constant has its value in a slot that owns it. -/
theorem Tracks.own_backing (h : f.Tracks dead m env) (hl : f.Live dead s)
    (hc : (f.entry (f.backing s)).constant? = none) :
    f.Live dead (f.backing s) ∧ env s = env (f.backing s) ∧
      (f.entry (f.backing s)).role = .own := by
  obtain ⟨hlb, henv, -, hown | ⟨hb, v, hv, -⟩⟩ := h.backing hl
  · exact ⟨hlb, henv, hown⟩
  · simp [Entry.constant?, hb, hv] at hc

/-- The type of a constant is that of its value. -/
theorem Tracks.type_of_constant (h : f.Tracks dead m env) (hl : f.Live dead s)
    (hc : (f.entry (f.backing s)).constant? = some v) :
    (f.entry (f.backing s)).type = .ofValue v := by
  obtain ⟨-, -, -, hown | ⟨hb, w, hw, -⟩⟩ := h.backing hl
  · simp [Entry.constant?, hown] at hc
  · simp only [hb, Entry.constant?, hw, Option.some.injEq] at hc ⊢
    rw [h.sound.constant s w hl hw, hc]

/-- A slot of unknown type is no constant. -/
theorem Tracks.constant?_of_unknown (h : f.Tracks dead m env) (hl : f.Live dead s)
    (ht : (f.entry (f.backing s)).type = .unknown) :
    (f.entry (f.backing s)).constant? = none := by
  cases hc : (f.entry (f.backing s)).constant? with
  | none => rfl
  | some v =>
    rw [h.type_of_constant hl hc] at ht
    cases v <;> cases ht

/-- The cell stands for the value of the slot. -/
def Represents [Cell.Discipline] (f : Frame) (env : Slot → Value) (s : Slot) (c : Cell) : Prop :=
  ∃ u, c.Reads u ∧ (f.knownType s).Fits u (env s)

theorem Tracks.represents_constant (h : f.Tracks dead m env) (hl : f.Live dead s)
    (hc : (f.entry (f.backing s)).constant? = some v) : f.Represents env s v.toCell := by
  refine ⟨v, Cell.reads_toCell v, ?_⟩
  rw [(h.constant? hl (v := v) hc).1, knownType, backingEntry, h.type_of_constant hl hc]
  exact KnownType.fits_ofValue v

/-- The words of the backing slot stand for the value of the slot. -/
theorem Tracks.represents_words (h : f.Tracks dead m env) (hl : f.Live dead s)
    (hc : (f.entry (f.backing s)).constant? = none)
    (hne : ∀ r, (f.entry (f.backing s)).data ≠ .freg r) :
    ∃ c, (f.entry (f.backing s)).Words m (f.backing s) c ∧ f.Represents env s c := by
  obtain ⟨hlb, henv, hown⟩ := h.own_backing hl hc
  obtain ⟨c, u, hw, hu, hfit⟩ := h.words hlb hown hne
  exact ⟨c, hw, u, hu, by rw [henv]; exact hfit⟩

theorem SameView.backing (h : f.SameView f') (s : Slot) : f'.backing s = f.backing s := by
  simp only [Frame.backing, copyOf?, h.role]

theorem SameView.constant? (h : f.SameView f') (s : Slot) :
    (f'.entry s).constant? = (f.entry s).constant? := by
  simp only [Entry.constant?, h.role]

theorem SameView.constant?_eq (h : f.SameView f') (s : Slot) : f'.constant? s = f.constant? s := by
  simp only [Frame.constant?, backingEntry, h.backing, h.constant?]

theorem SameView.knownType (h : f.SameView f') (s : Slot) : f'.knownType s = f.knownType s := by
  simp only [Frame.knownType, backingEntry, h.backing, h.type]

/-- A slot that no register has stays so while registers are taken. -/
theorem Unloads.data_memory (h : f.Unloads f') (hd : (f.entry s).data = .memory) :
    (f'.entry s).data = .memory := by
  rcases h.data s with h' | h'
  · exact h'.trans hd
  · exact h'

theorem Unloads.tag_none (h : f.Unloads f') (ht : (f.entry s).tag = none) :
    (f'.entry s).tag = none := by
  rcases h.tag s with h' | h'
  · exact h'.trans ht
  · exact h'

/-! ### Registers of the operation itself -/

/-- Writing a temporary that the operation has allocated. -/
theorem Loads.setReg (h : f.Loads dead m env f₁ m₁) {r : Reg} (w : UInt64)
    (htemp : f₁.regs.binding r = .temp) (hheld : ¬ f.regs.Held r) :
    f.Loads dead m env f₁ (m₁.setReg r w) := by
  refine ⟨h.tracks.setReg w (by rw [htemp]; rfl), h.view, ?_⟩
  obtain ⟨k₁, k₂, k₃, k₄, k₅, k₆, k₇⟩ := h.keeps
  exact ⟨k₁, by grind, k₃, k₄, k₅, k₆, k₇.trans (.setReg _ _ _)⟩

theorem Loads.setFReg (h : f.Loads dead m env f₁ m₁) {r : FReg} (d : Double)
    (htemp : f₁.regs.fbinding r = .temp) (hheld : ¬ f.regs.FHeld r) :
    f.Loads dead m env f₁ (m₁.setFReg r d) := by
  refine ⟨h.tracks.setFReg d (by rw [htemp]; rfl), h.view, ?_⟩
  obtain ⟨k₁, k₂, k₃, k₄, k₅, k₆, k₇⟩ := h.keeps
  exact ⟨k₁, k₂, k₃, k₄, by grind, k₆, k₇.trans (.setFReg _ _ _)⟩

/-- Taking back a pin after an operation that only moves values. -/
theorem Loads.unpin {r : Reg} (h : (f.mapRegs (·.setPinned r true)).Loads dead m env f₁ m₁) :
    f.Loads dead m env (if f.regs.isPinned r then f₁ else f₁.mapRegs (·.setPinned r false)) m₁ := by
  obtain ⟨ht, hv, hk⟩ := h
  have hheld : ∀ r', f.regs.Held r' → (f.mapRegs (·.setPinned r true)).regs.Held r' := by
    grind [Held]
  obtain ⟨k₁, k₂, k₃, k₄, k₅, k₆, k₇⟩ := hk
  split
  · refine ⟨ht, (SameView.mapRegs f _).trans hv, ?_⟩
    constructor <;> grind [FHeld]
  · refine ⟨ht.of_regs (fun _ => by simp) fun _ => .inl rfl,
      ((SameView.mapRegs f _).trans hv).trans (.mapRegs f₁ _), ?_⟩
    constructor <;> grind [FHeld]

/-- A pin that was set for a while is taken off again. -/
theorem Loads.unpinDouble {r : FReg}
    (h : (f.mapRegs (·.setFPinned r true)).Loads dead m env f₁ m₁) :
    f.Loads dead m env (if f.regs.isFPinned r then f₁
      else f₁.mapRegs (·.setFPinned r false)) m₁ := by
  obtain ⟨ht, hv, hk⟩ := h
  have hheld : ∀ r', f.regs.FHeld r' → (f.mapRegs (·.setFPinned r true)).regs.FHeld r' := by
    grind [FHeld]
  obtain ⟨k₁, k₂, k₃, k₄, k₅, k₆, k₇⟩ := hk
  split
  · refine ⟨ht, (SameView.mapRegs f _).trans hv, ?_⟩
    constructor <;> grind [Held]
  · refine ⟨ht.of_regs (fun _ => .inl rfl) fun _ => by simp,
      ((SameView.mapRegs f _).trans hv).trans (.mapRegs f₁ _), ?_⟩
    constructor <;> grind [Held]

end Frame

namespace FrameM

variable {f : Frame} {dead : Option Slot} {m : Machine} {env : Slot → Value} {s : Slot}

/-- Bookkeeping about the use of a register. -/
theorem loads_touch (h : f.Tracks dead m env) (r : Reg) :
    f.Loads dead m env (f.mapRegs (·.touch r)) m := by
  refine ⟨h.of_regs (fun _ => by simp) fun _ => .inl rfl, .mapRegs f _, ?_⟩
  constructor <;> simp [SameWorld.refl]

theorem loads_ftouch (h : f.Tracks dead m env) (r : FReg) :
    f.Loads dead m env (f.mapRegs (·.ftouch r)) m := by
  refine ⟨h.of_regs (fun _ => .inl rfl) fun _ => by simp, .mapRegs f _, ?_⟩
  constructor <;> simp [SameWorld.refl]

/-! ### Bound registers -/

/-- After `dataReg` the entry of the backing slot has the register. -/
theorem dataReg_ensures (h : f.Tracks dead m env) (hl : f.Live dead s) :
    Ensures (dataReg s) f m fun r f' m' => f.Loads dead m env f' m' ∧
      (f.entry (f.backing s)).role = .own ∧ (f'.entry (f.backing s)).data = .reg r := by
  unfold dataReg
  apply ensures_look
  dsimp only
  cases hc : (f.entry (f.backing s)).constant? with
  | some v => exact ensures_bind ensures_fail
  | none =>
    simp only [Option.isSome_none, Bool.false_eq_true, if_false]
    obtain ⟨hlb, -, hown⟩ := h.own_backing hl hc
    generalize f.backing s = b at *
    split
    · next r hdata =>
      apply ensures_regs
      apply ensures_pure
      exact ⟨loads_touch h r, hown, hdata⟩
    · exact ensures_fail
    · next hdata =>
      apply ensures_bind
      apply (alloc_ensures h).mono
      rintro r f₁ m₁ ⟨hloads, hun, htemp, hheld⟩
      have hlt := lt_of_binding htemp rfl
      have hlb₁ : f₁.Live dead b := hloads.view.live.2 hlb
      have hown₁ := (hloads.view.role b).trans hown
      have hdata₁ := hun.data_memory hdata
      obtain ⟨c, u, hw, hu⟩ := hloads.tracks.words hlb₁ hown₁ (by simp [hdata₁])
      apply ensures_bind
      apply ensures_emit (executes_move (hw.payload_memory hdata₁) hlt)
      apply ensures_regs
      apply ensures_bind
      apply ensures_update
      apply ensures_pure
      simp only [update_eq_setEntry]
      have hs₁ : b < f₁.entries.size := Nat.lt_of_lt_of_le hlb₁.1 hloads.tracks.sound.sp_le
      refine ⟨?_, hown, by simp [entry_setEntry, hs₁]⟩
      obtain ⟨-, -, -, -, hfregType, htagType, hdataIff, htagIff, hfdataIff, hftag⟩ :=
        hloads.tracks.sound
      have hr : (f₁.entry b).tag ≠ some r := by
        intro hr
        rw [(htagIff b r).2 ⟨hlb₁, hr⟩] at htemp
        cases htemp
      refine hloads.move hlb₁ hown₁ ⟨hown₁, rfl, rfl, rfl⟩ ⟨?_, ?_, ?_, ?_, ?_, hftag⟩ ?_ ?_ ?_ ?_
        (.setReg _ _ _) ?_ ?_ ?_
          ((owns_words (by simp)).2 ⟨c, u, hw.load_payload hlt hr, hu⟩)
      all_goals grind

/-- After `tagReg` the entry of the backing slot has the register. -/
theorem tagReg_ensures (h : f.Tracks dead m env) (hl : f.Live dead s) :
    Ensures (tagReg s) f m fun r f' m' => f.Loads dead m env f' m' ∧
      (f.entry (f.backing s)).role = .own ∧ (f.entry (f.backing s)).type = .unknown ∧
      (f'.entry (f.backing s)).tag = some r := by
  unfold tagReg
  apply ensures_look
  dsimp only
  split
  case isFalse => exact ensures_bind ensures_fail
  case isTrue htype =>
    have hc := h.constant?_of_unknown hl htype
    obtain ⟨hlb, -, hown⟩ := h.own_backing hl hc
    generalize f.backing s = b at *
    split
    · next r htag =>
      apply ensures_regs
      apply ensures_pure
      exact ⟨loads_touch h r, hown, htype, htag⟩
    · next htag =>
      apply ensures_bind
      apply (alloc_ensures h).mono
      rintro r f₁ m₁ ⟨hloads, hun, htemp, hheld⟩
      have hlt := lt_of_binding htemp rfl
      have hlb₁ : f₁.Live dead b := hloads.view.live.2 hlb
      have hown₁ := (hloads.view.role b).trans hown
      have htype₁ := (hloads.view.type b).trans htype
      have htag₁ := hun.tag_none htag
      have hs₁ : b < f₁.entries.size := Nat.lt_of_lt_of_le hlb₁.1 hloads.tracks.sound.sp_le
      have hne₁ : ∀ x, (f₁.entry b).data ≠ .freg x := by
        intro x hx
        have := hloads.tracks.sound.freg_type b x hlb₁ hx
        simp [htype₁] at this
      obtain ⟨c, u, hw, hu⟩ := hloads.tracks.words hlb₁ hown₁ hne₁
      have htag? : (f₁.entry b).type.tag? = none := by rw [htype₁]; rfl
      apply ensures_bind
      apply ensures_emit (executes_move (hw.tag_memory htag? htag₁) hlt)
      apply ensures_regs
      apply ensures_bind
      apply ensures_update
      apply ensures_pure
      simp only [update_eq_setEntry]
      refine ⟨?_, hown, htype, by simp [entry_setEntry, hs₁]⟩
      obtain ⟨-, -, -, -, hfregType, htagType, hdataIff, htagIff, hfdataIff, hftag⟩ :=
        hloads.tracks.sound
      have hr : (f₁.entry b).data ≠ .reg r := by
        intro hr
        rw [(hdataIff b r).2 ⟨hlb₁, hr⟩] at htemp
        cases htemp
      refine hloads.move hlb₁ hown₁ ⟨hown₁, rfl, rfl, rfl⟩ ⟨?_, ?_, ?_, ?_, ?_, hftag⟩ ?_ ?_ ?_ ?_
        (.setReg _ _ _) ?_ ?_ ?_ ((owns_words (by simpa using hne₁)).2
          ⟨c, u, hw.load_tag hlt htag? hr, hu⟩)
      all_goals grind

variable {v : Value} {P : UInt64 → Prop}

/-- A number in memory, read as a double. -/
theorem cellDouble_same {c : Cell} {u : Value} (hu : c.Reads u) (huv : u.same v) (hv : v.isNumber) :
    (Value.double (MachineM.cellDouble c)).same v := by
  refine Value.same_trans ?_ huv
  have hnum : u.isNumber := by rw [Value.same_isNumber huv, hv]
  have htag := Cell.tag_of_reads hu
  cases u with
  | int32 i =>
    have hi : c.payload.toUInt32.toInt32 = i := by
      simpa [Cell.decode, htag, Value.tag, Tag.ofWord?_word] using hu.1
    simp only [MachineM.cellDouble, htag, Value.tag, if_true, hi]
    exact Value.same_iff.2 (.inl ⟨_, _, rfl, rfl, Double.same_refl _⟩)
  | double d =>
    have hd : (⟨c.payload⟩ : Double) = d := by
      simpa [Cell.decode, htag, Value.tag, Tag.ofWord?_word] using hu.1
    have hne : Tag.double.word ≠ Tag.int32.word := by decide
    simp only [MachineM.cellDouble, htag, Value.tag, hne, if_false, hd]
    exact Value.same_refl _
  | _ => cases hnum

/-- After `doubleReg` the entry of the backing slot has the register. -/
theorem doubleReg_ensures (h : f.Tracks dead m env) (hl : f.Live dead s) :
    Ensures (doubleReg s) f m fun r f' m' => f.Loads dead m env f' m' ∧
      (f.entry (f.backing s)).role = .own ∧ (f.entry (f.backing s)).type = .double ∧
      (f'.entry (f.backing s)).data = .freg r := by
  unfold doubleReg
  apply ensures_look
  dsimp only
  split
  case isTrue => exact ensures_bind ensures_fail
  case isFalse hcond =>
    have htype : (f.entry (f.backing s)).type = .double := by
      by_cases ht : (f.entry (f.backing s)).type = .double
      · exact ht
      · exact absurd (.inr ht) hcond
    have hc : (f.entry (f.backing s)).constant? = none := by
      cases hc : (f.entry (f.backing s)).constant? with
      | none => rfl
      | some v => exact absurd (.inl (by simp [hc])) hcond
    obtain ⟨hlb, -, hown⟩ := h.own_backing hl hc
    generalize f.backing s = b at *
    split
    · next r hdata =>
      apply ensures_regs
      apply ensures_pure
      exact ⟨loads_ftouch h r, hown, htype, hdata⟩
    · exact ensures_fail
    · next hdata =>
      apply ensures_bind
      apply (allocDouble_ensures h).mono
      rintro r f₁ m₁ ⟨hloads, hun, htemp, hheld⟩
      have hlt := lt_of_fbinding htemp rfl
      have hltm : r.index < FReg.count := Nat.lt_trans hlt (by decide)
      have hlb₁ : f₁.Live dead b := hloads.view.live.2 hlb
      have hown₁ := (hloads.view.role b).trans hown
      have htype₁ := (hloads.view.type b).trans htype
      have hdata₁ := hun.data_memory hdata
      have htag₁ : (f₁.entry b).tag = none := by
        cases htag : (f₁.entry b).tag with
        | none => rfl
        | some x =>
          have := hloads.tracks.sound.tag_type b x hlb₁ htag
          simp [htype₁] at this
      have hs₁ : b < f₁.entries.size := Nat.lt_of_lt_of_le hlb₁.1 hloads.tracks.sound.sp_le
      obtain ⟨c, u, hw, hu, hfit⟩ := hloads.tracks.words hlb₁ hown₁ (by simp [hdata₁])
      have hcell : m₁.slots[b]? = some c := by
        have ht := hw.tag_memory (by rw [htype₁]; rfl) htag₁
        have hp := hw.payload_memory hdata₁
        simp only [operand?] at ht hp
        cases hb : m₁.slots[b]? <;> grind [Cell]
      rw [htype₁] at hfit
      apply ensures_bind
      apply ensures_emit (executes_loadDouble hcell hltm)
      apply ensures_regs
      apply ensures_bind
      apply ensures_update
      apply ensures_pure
      simp only [update_eq_setEntry]
      refine ⟨?_, hown, htype, by simp [entry_setEntry, hs₁]⟩
      obtain ⟨-, -, -, -, hfregType, htagType, hdataIff, htagIff, hfdataIff, hftag⟩ :=
        hloads.tracks.sound
      refine hloads.move hlb₁ hown₁ ⟨hown₁, rfl, rfl, rfl⟩ ⟨?_, ?_, ?_, ?_, ?_, ?_⟩ ?_ ?_ ?_ ?_
        (.setFReg _ _ _) ?_ ?_ ?_ ((owns_freg rfl).2 ⟨_, ?_,
          cellDouble_same hu hfit.same hfit.isNumber, fun _ => ⟨c, u, hcell, hu, hfit⟩⟩)
      all_goals grind

/-! ### Copies in temporaries -/

/-- The operation hands out a new temporary whose word satisfies `P`. -/
def HandsOut [Cell.Discipline] (f : Frame) (dead : Option Slot) (m : Machine)
    (env : Slot → Value) (P : UInt64 → Prop) (r : Reg) (f' : Frame) (m' : Machine) : Prop :=
  f.Loads dead m env f' m' ∧ f'.regs.binding r = .temp ∧ ¬ f.regs.Held r ∧
    ∃ w, m'.reg r = some w ∧ P w

/-- Loading a temporary from a place that survives the allocation. -/
theorem loadTemp_ensures (h : f.Tracks dead m env) {src : Operand}
    (hsrc : ∀ f₁ m₁, f.Loads dead m env f₁ m₁ → f.Unloads f₁ →
      ∃ w, m₁.operand? src = some w ∧ P w) :
    Ensures (loadTemp src) f m (HandsOut f dead m env P) := by
  unfold loadTemp
  apply ensures_bind
  apply (alloc_ensures h).mono
  rintro r f₁ m₁ ⟨hloads, hun, htemp, hheld⟩
  obtain ⟨w, hw, hP⟩ := hsrc f₁ m₁ hloads hun
  have hlt := lt_of_binding htemp rfl
  apply ensures_bind
  apply ensures_emit (executes_move hw hlt)
  apply ensures_pure
  exact ⟨hloads.setReg w htemp hheld, htemp, hheld, w, by simp [hlt], hP⟩

/-- Copying a register that a slot has. -/
theorem copyReg_ensures (h : f.Tracks dead m env) {src : Reg} {w : UInt64} (hw : m.reg src = some w)
    (hb : f.regs.binding src ≠ .free) (hP : P w) :
    Ensures (copyReg src) f m (HandsOut f dead m env P) := by
  have hlt := lt_of_binding_ne_free hb
  have hpin : (f.mapRegs (·.setPinned src true)).Tracks dead m env :=
    h.of_regs (fun _ => by simp) fun _ => .inl rfl
  unfold copyReg
  apply ensures_bind
  rw [withPinned_eq]
  apply ensures_marked
  apply (alloc_ensures hpin).mono
  rintro r f₁ m₁ ⟨hloads, hun, htemp, hheld⟩
  have hltr := lt_of_binding htemp rfl
  have hsrc : m₁.operand? (.reg src) = some w := by
    rw [← hw]
    exact hloads.keeps.contents src (.inr (by simp [hlt]))
  apply ensures_bind
  apply ensures_emit (executes_move hsrc hltr)
  apply ensures_pure
  have hheld' : ¬ f.regs.Held r := by
    intro hr
    apply hheld
    grind [Held]
  refine ⟨hloads.unpin.setReg w ?_ hheld', ?_, hheld', w, by simp [hltr], hP⟩ <;>
  · split
    · exact htemp
    · simpa using htemp

/-- `copyData` hands out a payload of the value. -/
theorem copyData_ensures (h : f.Tracks dead m env) (hl : f.Live dead s) :
    Ensures (copyData s) f m (HandsOut f dead m env fun w =>
      ∃ c, f.Represents env s c ∧ c.payload = w) := by
  unfold copyData
  apply ensures_look
  dsimp only
  cases hc : (f.entry (f.backing s)).constant? with
  | some v =>
    refine loadTemp_ensures h fun f₁ m₁ _ _ => ⟨_, rfl, v.toCell, h.represents_constant hl hc, ?_⟩
    simp [Value.toCell]
  | none =>
    cases hdata : (f.entry (f.backing s)).data with
    | freg r => exact ensures_fail
    | reg src =>
      obtain ⟨hlb, -, -⟩ := h.own_backing hl hc
      obtain ⟨c, hw, hrep⟩ := h.represents_words hl hc (by simp [hdata])
      have hb := (h.sound.data_iff _ src).2 ⟨hlb, hdata⟩
      exact copyReg_ensures h (hw.payload_reg hdata) (by simp [hb]) ⟨c, hrep, rfl⟩
    | memory =>
      refine loadTemp_ensures h fun f₁ m₁ hloads hun => ?_
      have hdata₁ := hun.data_memory hdata
      have hv := hloads.view
      obtain ⟨c, hw, hrep⟩ := hloads.tracks.represents_words (hv.live.2 hl)
        (by rw [hv.constant?, hv.backing, hc]) (by simp [hv.backing, hdata₁])
      rw [hv.backing] at hw
      refine ⟨_, hw.payload_memory hdata₁, c, ?_, rfl⟩
      simpa only [Represents, hv.knownType] using hrep

/-- `copyTag` hands out a tag of the value. -/
theorem copyTag_ensures (h : f.Tracks dead m env) (hl : f.Live dead s) :
    Ensures (copyTag s) f m (HandsOut f dead m env fun w =>
      ∃ c, f.Represents env s c ∧ c.tag = w) := by
  unfold copyTag
  apply ensures_look
  dsimp only
  cases hc : (f.entry (f.backing s)).constant? with
  | some v =>
    refine loadTemp_ensures h fun f₁ m₁ _ _ =>
      ⟨_, m₁.operand?_ofTag _, v.toCell, h.represents_constant hl hc, rfl⟩
  | none =>
    obtain ⟨hlb, henv, hown⟩ := h.own_backing hl hc
    cases htag? : (f.entry (f.backing s)).type.tag? with
    | some t =>
      have hne : ∀ r, (f.entry (f.backing s)).data ≠ .freg r := by
        intro r hr
        rw [h.sound.freg_type _ r hlb hr] at htag?
        cases htag?
      obtain ⟨c, hw, hrep⟩ := h.represents_words hl hc hne
      refine loadTemp_ensures h fun f₁ m₁ _ _ => ⟨_, m₁.operand?_ofTag _, c, hrep, ?_⟩
      exact (hw.tag_known htag?).symm
    | none =>
      cases htag : (f.entry (f.backing s)).tag with
      | some src =>
        have htype := h.sound.tag_type _ src hlb htag
        have hne : ∀ r, (f.entry (f.backing s)).data ≠ .freg r := by
          intro r hr
          rw [h.sound.freg_type _ r hlb hr] at htype
          cases htype
        obtain ⟨c, hw, hrep⟩ := h.represents_words hl hc hne
        have hb := (h.sound.tag_iff _ src).2 ⟨hlb, htag⟩
        exact copyReg_ensures h (hw.tag_reg htag? htag) (by simp [hb]) ⟨c, hrep, rfl⟩
      | none =>
        dsimp only
        split
        case isFalse => exact ensures_fail
        case isTrue hcond =>
          refine loadTemp_ensures h fun f₁ m₁ hloads hun => ?_
          have hv := hloads.view
          have htag₁ := hun.tag_none htag
          have hl₁ := hv.live.2 hl
          have hlb₁ : f₁.Live dead (f.backing s) := hv.live.2 hlb
          have hne₁ : ∀ r, (f₁.entry (f.backing s)).data ≠ .freg r := by
            intro r hr
            rcases hcond with ht | hd
            · have := hloads.tracks.sound.freg_type _ r hlb₁ hr
              rw [hv.type, ht] at this
              cases this
            · rw [hun.data_memory hd] at hr
              cases hr
          obtain ⟨c, hw, hrep⟩ := hloads.tracks.represents_words hl₁
            (by rw [hv.constant?, hv.backing, hc]) (by rw [hv.backing]; exact hne₁)
          rw [hv.backing] at hw
          refine ⟨_, hw.tag_memory (by rw [hv.type, htag?]) htag₁, c, ?_, rfl⟩
          simpa only [Represents, hv.knownType] using hrep

/-- The operation hands out a new double temporary, with the number of the value if it has one. -/
def HandsOutNumber [Cell.Discipline] (f : Frame) (dead : Option Slot) (m : Machine)
    (env : Slot → Value) (v : Value) (r : FReg) (f' : Frame) (m' : Machine) : Prop :=
  f.Loads dead m env f' m' ∧ f'.regs.fbinding r = .temp ∧ ¬ f.regs.FHeld r ∧
    ∃ d, m'.freg r = some d ∧ (v.isNumber → (Value.double d).same v)

theorem handsOutNumber_setFReg {f₁ : Frame} {m₁ : Machine} {r : FReg} {d : Double}
    (hloads : f.Loads dead m env f₁ m₁) (htemp : f₁.regs.fbinding r = .temp)
    (hheld : ¬ f.regs.FHeld r) (hd : v.isNumber → (Value.double d).same v) :
    HandsOutNumber f dead m env v r f₁ (m₁.setFReg r d) := by
  have hlt := lt_of_fbinding htemp rfl
  have hltm : r.index < FReg.count := Nat.lt_trans hlt (by decide)
  exact ⟨hloads.setFReg d htemp hheld, htemp, hheld, d, by simp [hltm], hd⟩

theorem lt_count_of_ftemp {f : Frame} {r : FReg} (h : f.regs.fbinding r = .temp) :
    r.index < FReg.count :=
  Nat.lt_trans (lt_of_fbinding h rfl)
    (by decide)

/-- Copying a slot that is known to be an integer. -/
theorem copyNumber_int32_ensures (h : f.Tracks dead m env) {b : Slot} (hlb : f.Live dead b)
    (hown : (f.entry b).role = .own) (htype : (f.entry b).type = .int32) :
    Ensures (do
      let src ← dataReg b
      let r ← withPinned src allocDouble
      emit (.int32ToDouble r src)
      return r) f m (HandsOutNumber f dead m env (env b)) := by
  have hb := backing_of_own hown
  apply ensures_bind
  apply (dataReg_ensures h hlb).mono
  rintro src f₁ m₁ ⟨hloads, -, hdata₁⟩
  rw [hb] at hdata₁
  have hlb₁ := hloads.view.live.2 hlb
  obtain ⟨c, u, hw, hu, hfit⟩ := hloads.tracks.words hlb₁ ((hloads.view.role b).trans hown)
    (by simp [hdata₁])
  have hsrc := hw.payload_reg hdata₁
  have hbind := (hloads.tracks.sound.data_iff b src).2 ⟨hlb₁, hdata₁⟩
  have hlt := lt_of_binding hbind rfl
  have htype₁ := (hloads.view.type b).trans htype
  have hpin : (f₁.mapRegs (·.setPinned src true)).Tracks dead m₁ env :=
    hloads.tracks.of_regs (fun _ => by simp) fun _ => .inl rfl
  apply ensures_bind
  rw [withPinned_eq]
  apply ensures_marked
  apply (allocDouble_ensures hpin).mono
  rintro r f₂ m₂ ⟨hloads₂, -, htemp, hheld⟩
  have hsrc₂ : m₂.reg src = some c.payload := by
    rw [← hsrc]
    exact hloads₂.keeps.contents src (.inr (by simp [hlt]))
  have hheld₀ : ¬ f.regs.FHeld r := fun hr => hheld (hloads.keeps.fheld hr)
  apply ensures_bind
  apply ensures_emit (executes_int32ToDouble hsrc₂ (lt_count_of_ftemp htemp))
  apply ensures_pure
  refine handsOutNumber_setFReg (hloads.trans hloads₂.unpin) ?_ hheld₀ ?_
  · split
    · exact htemp
    · simpa using htemp
  · -- the cell is an integer, so its payload is
    intro _
    have htag := hw.tag_known (t := .int32) (by rw [htype₁]; rfl)
    have hu' : u = .int32 c.payload.toUInt32.toInt32 := by
      have hd := hu.1
      simp only [Cell.decode, ← htag, Tag.ofWord?_word, Except.ok.injEq] at hd
      exact hd.symm
    rw [← hfit.eq (by simp [htype₁]), hu']
    exact Value.same_iff.2 (.inl ⟨_, _, rfl, rfl, Double.same_refl _⟩)

/-- `copyNumber` hands out the number of a slot that has one. On any other value it still hands out
a double, which a guard on the tag keeps from being used. -/
theorem copyNumber_ensures (h : f.Tracks dead m env) (hl : f.Live dead s) :
    Ensures (copyNumber s) f m (HandsOutNumber f dead m env (env s)) := by
  unfold copyNumber
  apply ensures_look
  dsimp only
  cases hc : (f.entry (f.backing s)).constant? with
  | some v =>
    obtain ⟨henv, -⟩ := h.constant? hl (v := v) hc
    dsimp only
    cases hd : v.double? with
    | none => exact ensures_fail
    | some d =>
      apply ensures_bind
      apply (allocDouble_ensures h).mono
      rintro r f₁ m₁ ⟨hloads, -, htemp, hheld⟩
      apply ensures_bind
      apply ensures_emit (executes_moveDoubleImm (lt_count_of_ftemp htemp))
      apply ensures_pure
      refine handsOutNumber_setFReg hloads htemp hheld fun _ => ?_
      rw [henv]
      exact Value.same_iff.2 (.inl ⟨d, d, rfl, hd, Double.same_refl d⟩)
  | none =>
    obtain ⟨hlb, henv, hown⟩ := h.own_backing hl hc
    rw [henv]
    generalize f.backing s = b at *
    split
    case h_1 heq => cases heq
    case h_2 htype => exact copyNumber_int32_ensures h hlb hown htype
    case h_3 src _ hdata _ =>
      obtain ⟨d, hd, hv, -⟩ :=
        (owns_freg hdata).1 ((holds_own hown).1 (h.holds b hlb))
      have hbind := (h.sound.fdata_iff b src).2 ⟨hlb, hdata⟩
      have hlt := lt_of_fbinding hbind rfl
      have hpin : (f.mapRegs (·.setFPinned src true)).Tracks dead m env :=
        h.of_regs (fun _ => .inl rfl) fun _ => by simp
      apply ensures_bind
      rw [withDoublePinned_eq]
      apply ensures_marked
      apply (allocDouble_ensures hpin).mono
      rintro r f₁ m₁ ⟨hloads, -, htemp, hheld⟩
      have hsrc : m₁.freg src = some d := by
        rw [← hd]
        exact hloads.keeps.fcontents src (.inr (by simp [hlt]))
      have hheld' : ¬ f.regs.FHeld r := by
        intro hr
        apply hheld
        grind [FHeld]
      apply ensures_bind
      apply ensures_emit (executes_moveDouble hsrc (lt_count_of_ftemp htemp))
      apply ensures_pure
      refine handsOutNumber_setFReg hloads.unpinDouble ?_ hheld' fun _ => hv
      split
      · exact htemp
      · simpa using htemp
    case h_4 hne =>
      -- the slot is stored, and memory keeps the number while a register is found
      have hs : b < f.entries.size := Nat.lt_of_lt_of_le hlb.1 h.sound.sp_le
      apply ensures_bind
      apply (syncEntry_ensures h hlb).mono
      rintro - f₁ m₁ ⟨hloads₁, hf₁, -⟩
      have hent₁ : f₁.entry b = (f.entry b).synced := by
        rw [hf₁, entry_update, if_pos ⟨rfl, hs⟩]
      apply ensures_bind
      apply (allocDouble_ensures hloads₁.tracks).mono
      rintro r f₂ m₂ ⟨hloads₂, hun, htemp, hheld⟩
      have hloads := hloads₁.trans hloads₂
      have hlb₂ := hloads.view.live.2 hlb
      have hne₂ : ∀ x, (f₂.entry b).data ≠ .freg x := by
        intro x hx
        rcases hun.data b with hd | hd
        · rw [hd, hent₁] at hx
          exact hne x hx
        · rw [hd] at hx
          cases hx
      obtain ⟨c, u, hw, hu, hfit⟩ := hloads.tracks.words hlb₂
        ((hloads.view.role b).trans hown) hne₂
      have hcell := hw.getElem? (hun.tagSynced b (by rw [hent₁]; rfl))
        (hun.dataSynced b (by rw [hent₁]; rfl))
      apply ensures_bind
      apply ensures_emit (executes_loadDouble hcell (lt_count_of_ftemp htemp))
      apply ensures_pure
      exact handsOutNumber_setFReg hloads htemp (fun hr => hheld (hloads₁.keeps.fheld hr))
        fun hnum => cellDouble_same hu hfit.same hnum

/-! ### Whole values -/

/-- The registers of a source are pinned. -/
def SourcePinned (f : Frame) : Source → Prop
  | .constant _ => True
  | .typed _ payload => f.regs.isPinned payload
  | .regs tag payload => f.regs.isPinned tag ∧ f.regs.isPinned payload
  | .double r => f.regs.isFPinned r

theorem loads_pin (h : f.Tracks dead m env) (r : Reg) :
    f.Loads dead m env (f.mapRegs (·.setPinned r true)) m := by
  refine ⟨h.of_regs (fun _ => by simp) fun _ => .inl rfl, .mapRegs f _, ?_⟩
  constructor <;> grind [SameWorld.refl]

theorem loads_fpin (h : f.Tracks dead m env) (r : FReg) :
    f.Loads dead m env (f.mapRegs (·.setFPinned r true)) m := by
  refine ⟨h.of_regs (fun _ => .inl rfl) fun _ => by simp, .mapRegs f _, ?_⟩
  constructor <;> grind [SameWorld.refl]

/-- `source` gives the value of the slot, in registers that stay pinned. -/
theorem source_ensures (h : f.Tracks dead m env) (hl : f.Live dead s) :
    Ensures (source s) f m fun src f' m' => f.Loads dead m env f' m' ∧ SourcePinned f' src ∧
      ∃ c, m'.source? src = some c ∧ c.Encodes (env s) := by
  unfold source
  apply ensures_look
  dsimp only
  cases hc : (f.entry (f.backing s)).constant? with
  | some v =>
    apply ensures_pure
    refine ⟨.refl h, trivial, v.toCell, rfl, ?_⟩
    rw [(h.constant? hl (v := v) hc).1]
    exact Cell.encodes_toCell v.same_refl
  | none =>
    obtain ⟨hlb, henv, hown⟩ := h.own_backing hl hc
    rw [henv]
    generalize f.backing s = b at *
    have hb := backing_of_own hown
    by_cases hdouble : (f.entry b).type = .double
    · simp only [hdouble]
      apply ensures_bind
      apply (doubleReg_ensures h hlb).mono
      rintro r f₁ m₁ ⟨hloads, -, -, hdata₁⟩
      rw [hb] at hdata₁
      have hlb₁ := hloads.view.live.2 hlb
      obtain ⟨d, hd, hv, -⟩ := (owns_freg hdata₁).1 ((holds_own
        ((hloads.view.role b).trans hown)).1 (hloads.tracks.holds b hlb₁))
      have hbind := (hloads.tracks.sound.fdata_iff b r).2 ⟨hlb₁, hdata₁⟩
      have hlt := lt_of_fbinding hbind rfl
      apply ensures_regs
      apply ensures_pure
      refine ⟨hloads.trans (loads_fpin hloads.tracks r), by simp [SourcePinned, hlt],
        (Value.number d).toCell, by simp [source?, hd], ?_⟩
      exact Cell.encodes_toCell (Value.same_trans (Value.number_same d) hv)
    · by_cases hunknown : (f.entry b).type = .unknown
      · simp only [hunknown]
        apply ensures_bind
        apply (tagReg_ensures h hlb).mono
        rintro tag f₁ m₁ ⟨hloads₁, -, -, htag₁⟩
        rw [hb] at htag₁
        have hlb₁ := hloads₁.view.live.2 hlb
        have hbind₁ := (hloads₁.tracks.sound.tag_iff b tag).2 ⟨hlb₁, htag₁⟩
        have hlt := lt_of_binding hbind₁ rfl
        apply ensures_regs
        have hloads₂ := hloads₁.trans (loads_pin hloads₁.tracks tag)
        apply ensures_bind
        apply (dataReg_ensures hloads₂.tracks (hloads₂.view.live.2 hlb)).mono
        rintro payload f₃ m₃ ⟨hloads₃, -, hdata₃⟩
        rw [hloads₂.view.backing, hb] at hdata₃
        have hpin₃ : f₃.regs.isPinned tag := hloads₃.keeps.pinned tag (by simp [hlt])
        have hbind₃ : f₃.regs.binding tag = .tag b := by
          rw [hloads₃.keeps.binding tag (.inr (by simp [hlt]))]
          simpa using hbind₁
        have hloads := hloads₂.trans hloads₃
        have hlb₃ := hloads.view.live.2 hlb
        have htype₃ := (hloads.view.type b).trans hunknown
        obtain ⟨-, htag₃⟩ := (hloads.tracks.sound.tag_iff b tag).1 hbind₃
        obtain ⟨c, u, hw, hu, hfit⟩ := hloads.tracks.words hlb₃
          ((hloads.view.role b).trans hown) (by simp [hdata₃])
        have hdbind := (hloads.tracks.sound.data_iff b payload).2 ⟨hlb₃, hdata₃⟩
        have hltp := lt_of_binding hdbind rfl
        apply ensures_regs
        apply ensures_pure
        refine ⟨hloads.trans (loads_pin hloads.tracks payload), ?_, c, ?_, u, hu.1, hfit.same⟩
        · simp [SourcePinned, hltp, hpin₃]
        · simp [source?, hw.tag_reg (by rw [htype₃]; rfl) htag₃, hw.payload_reg hdata₃]
      · obtain ⟨t, ht⟩ : ∃ t, (f.entry b).type.tag? = some t := by
          cases hk : (f.entry b).type <;> simp_all [KnownType.tag?]
        have key : Ensures (do
            let payload ← dataReg b
            updateRegs (·.setPinned payload true)
            return Source.typed ((f.entry b).type.tag?.getD .undefined) payload) f m
            fun src f' m' => f.Loads dead m env f' m' ∧ SourcePinned f' src ∧
              ∃ c, m'.source? src = some c ∧ c.Encodes (env b) := by
          apply ensures_bind
          apply (dataReg_ensures h hlb).mono
          rintro payload f₁ m₁ ⟨hloads, -, hdata₁⟩
          rw [hb] at hdata₁
          have hlb₁ := hloads.view.live.2 hlb
          obtain ⟨c, u, hw, hu, hfit⟩ := hloads.tracks.words hlb₁
            ((hloads.view.role b).trans hown) (by simp [hdata₁])
          have hbind := (hloads.tracks.sound.data_iff b payload).2 ⟨hlb₁, hdata₁⟩
          have hlt := lt_of_binding hbind rfl
          apply ensures_regs
          apply ensures_pure
          refine ⟨hloads.trans (loads_pin hloads.tracks payload), by simp [SourcePinned, hlt], c,
            ?_, u, hu.1, hfit.same⟩
          simp [source?, hw.payload_reg hdata₁, ht,
            hw.tag_known (by rw [hloads.view.type, ht])]
        split
        case h_1 heq => cases heq
        case h_2 hd => exact absurd hd hdouble
        case h_3 hu => exact absurd hu hunknown
        case h_4 => exact key

/-- The same machine, and registers bound as before. -/
structure Unpins [Cell.Discipline] (f : Frame) (dead : Option Slot) (m : Machine)
    (env : Slot → Value) (f' : Frame) (m' : Machine) : Prop where
  machine : m' = m
  tracks : f'.Tracks dead m env
  view : f.SameView f'
  binding : ∀ r, f'.regs.binding r = f.regs.binding r
  fbinding : ∀ r, f'.regs.fbinding r = f.regs.fbinding r

theorem unpins_mapRegs (h : f.Tracks dead m env) {g : RegisterFile → RegisterFile}
    (hb : ∀ r, (g f.regs).binding r = f.regs.binding r)
    (hf : ∀ r, (g f.regs).fbinding r = f.regs.fbinding r) :
    Unpins f dead m env (f.mapRegs g) m :=
  ⟨rfl, h.of_regs (fun r => .inl (hb r)) fun r => .inl (hf r), .mapRegs f g, hb, hf⟩

/-- Taking the pins off a loaded value changes nothing else. -/
theorem unpinSource_ensures (h : f.Tracks dead m env) (src : Source) :
    Ensures (unpinSource src) f m fun _ f' m' => Unpins f dead m env f' m' := by
  cases src with
  | constant c => exact ensures_pure ⟨rfl, h, .refl f, fun _ => rfl, fun _ => rfl⟩
  | typed t r | double r =>
    exact ensures_updateRegs (unpins_mapRegs h (fun _ => by simp) fun _ => by simp)
  | regs t r =>
    refine ensures_regs (ensures_updateRegs ?_)
    obtain ⟨-, h₁, v₁, b₁, f₁⟩ := unpins_mapRegs (g := (·.setPinned t false)) h (fun _ => by simp)
      fun _ => by simp
    obtain ⟨-, h₂, v₂, b₂, f₂⟩ := unpins_mapRegs (g := (·.setPinned r false)) h₁
      (fun _ => by simp) fun _ => by simp
    exact ⟨rfl, h₂, v₁.trans v₂, fun q => (b₂ q).trans (b₁ q), fun q => (f₂ q).trans (f₁ q)⟩

end FrameM

end FastPath
