import FastPath.Proofs.Frame.Load
import FastPath.Proofs.Frame.Loans

/-!
# Loading succeeds

The emitters never put a number known as a double into a general register, a literal under
construction is an object that its slot owns, and objects are no constants. On such frames,
here called neat, every operation that loads or copies a slot of a suitable type succeeds, as
long as there are registers to be had, and leaves a neat frame.
-/

namespace FastPath

open Frame RegisterFile

/-- No double is in a general register, a literal under construction is an object, and no
constant is one. -/
structure Entry.Neat (e : Entry) : Prop where
  data : ∀ r, e.data = .reg r → e.type ≠ .double
  init : e.init ≠ none → e.role = .own ∧ e.type = .object
  constant : ∀ v, e.role = .constant v → v.tag ≠ .object

namespace Frame

/-- The entries of live slots are neat. -/
def Neat (f : Frame) (dead : Option Slot) : Prop := ∀ s, f.Live dead s → (f.entry s).Neat

variable {f f' : Frame} {dead : Option Slot}

theorem Neat.mapRegs (h : f.Neat dead) (g : RegisterFile → RegisterFile) :
    (f.mapRegs g).Neat dead :=
  h

/-- Soundness does not depend on pins and stamps. -/
theorem Sound.mapRegs (h : f.Sound dead) {g : RegisterFile → RegisterFile}
    (hb : ∀ r, (g f.regs).binding r = f.regs.binding r)
    (hfb : ∀ r, (g f.regs).fbinding r = f.regs.fbinding r) : (f.mapRegs g).Sound dead := by
  obtain ⟨h₁, h₂, h₃, h₄, h₅, h₆, h₇, h₈, h₉, h₁₀⟩ := h
  refine ⟨h₁, h₂, h₃, h₄, h₅, h₆, fun s r => ?_, fun s r => ?_, fun s r => ?_, fun s r => ?_⟩
  · exact (hb r) ▸ h₇ s r
  · exact (hb r) ▸ h₈ s r
  · exact (hfb r) ▸ h₉ s r
  · exact (hfb r) ▸ h₁₀ s r

/-- Only doubles are in double registers. -/
theorem Sound.ne_freg (h : f.Sound dead) {s : Slot} (hl : f.Live dead s)
    (ht : (f.entry s).type ≠ .double) (r : FReg) : (f.entry s).data ≠ .freg r :=
  fun hr => ht (h.freg_type s r hl hr)

/-- Taking registers from slots leaves the frame neat. -/
theorem Neat.unload (h : f.Neat dead) (hv : f.SameView f') (hu : f.Unloads f') :
    f'.Neat dead := by
  intro s hl
  have he := h s (hv.live.1 hl)
  refine ⟨fun r hd => ?_, fun hi => ?_, hv.role s ▸ he.constant⟩
  · rw [hv.type]
    rcases hu.data s with hs | hs
    · exact he.data r (hs ▸ hd)
    · rw [hs] at hd
      cases hd
  · rw [hv.role, hv.type]
    exact he.init (hv.init s ▸ hi)

variable {g : Entry → Entry}

/-- Changing an entry leaves the frame neat if the new entry is. -/
theorem Neat.update (h : f.Neat dead) {b : Slot} (hg : f.Live dead b → (g (f.entry b)).Neat) :
    (f.update b g).Neat dead := by
  intro s hl
  rw [entry_update]
  split
  · next hb => exact hb.1 ▸ hg (hb.1 ▸ hl)
  · exact h s hl

/-- Loading the payload of one slot leaves the frame neat. -/
theorem Neat.load (h : f.Neat dead) {b : Slot}
    (hg : ∀ e : Entry, (g e).role = e.role ∧ (g e).type = e.type ∧ (g e).init = e.init)
    (hd : ∀ r, (g (f.entry b)).data = .reg r → (f.entry b).data ≠ .reg r →
      (f.entry b).type ≠ .double) : (f.update b g).Neat dead := by
  refine h.update fun hl => ?_
  obtain ⟨hrole, htype, hinit⟩ := hg (f.entry b)
  refine ⟨fun r hr => ?_, fun hi => ?_, hrole ▸ (h b hl).constant⟩
  · rw [htype]
    by_cases hr' : (f.entry b).data = .reg r
    · exact (h b hl).data r hr'
    · exact hd r hr hr'
  · rw [hrole, htype]
    exact (h b hl).init (hinit ▸ hi)

/-- An update that keeps role, type, notes and place of the value keeps the view. -/
theorem SameView.update (f : Frame) (b : Slot)
    (hg : ∀ e : Entry, (g e).role = e.role ∧ (g e).type = e.type ∧ (g e).types = e.types ∧
      (g e).init = e.init) : f.SameView (f.update b g) := by
  refine ⟨rfl, rfl, rfl, rfl, rfl, rfl, ?_, ?_, ?_, ?_⟩
  all_goals
    intro s
    rw [entry_update]
    split
    · simp [hg]
    · rfl

end Frame

/-! ### Pins -/

namespace RegisterFile.Lends

variable {g : RegisterFile} {L : Loans}

theorem pin (h : g.Lends L) {r : Reg} (hr : r.index < Reg.count) :
    (g.setPinned r true).Lends (L.addPins [r]) := by
  obtain ⟨h₁, h₂, h₃, h₄⟩ := h
  constructor <;> grind [Loans.addPins]

variable {r : FReg} {f f' : Frame}

theorem fpin (h : g.Lends L) (hr : r.index < FReg.allocatable) :
    (g.setFPinned r true).Lends (L.addFPins [r]) := by
  obtain ⟨h₁, h₂, h₃, h₄⟩ := h
  constructor <;> grind [Loans.addFPins]

/-- A pin that is new is taken back. -/
theorem restore {r : Reg} (h : f'.regs.Lends (L.addPins [r])) (hp : f.regs.isPinned r ↔ r ∈ L.pins)
    (hr : r.index < Reg.count) :
    (if f.regs.isPinned r then f' else f'.mapRegs (·.setPinned r false)).regs.Lends L := by
  obtain ⟨h₁, h₂, h₃, h₄⟩ := h
  split <;> constructor <;> grind [Loans.addPins]

theorem frestore (h : f'.regs.Lends (L.addFPins [r])) (hp : f.regs.isFPinned r ↔ r ∈ L.fpins)
    (hr : r.index < FReg.allocatable) :
    (if f.regs.isFPinned r then f' else f'.mapRegs (·.setFPinned r false)).regs.Lends L := by
  obtain ⟨h₁, h₂, h₃, h₄⟩ := h
  split <;> constructor <;> grind [Loans.addFPins]

theorem touch (h : g.Lends L) (r : Reg) : (g.touch r).Lends L := by
  obtain ⟨h₁, h₂, h₃, h₄⟩ := h
  constructor <;> grind

theorem ftouch (h : g.Lends L) (r : FReg) : (g.ftouch r).Lends L := by
  obtain ⟨h₁, h₂, h₃, h₄⟩ := h
  constructor <;> grind

theorem not_mem_temps (h : g.Lends L) {r : Reg} (hr : ¬ g.Held r) : r ∉ L.temps :=
  fun hm => hr (.inl ((h.temp r).2 hm))

theorem not_mem_ftemps (h : g.Lends L) (hr : ¬ g.FHeld r) : r ∉ L.ftemps :=
  fun hm => hr (.inl ((h.ftemp r).2 hm))

end RegisterFile.Lends

namespace FrameM

variable {f : Frame} {dead : Option Slot} {m : Machine} {env : Slot → Value} {s : Slot}
  {L : Loans}

/-! ### Bound registers -/

/-- Binding the payload of a slot succeeds if it is no constant and no double. -/
theorem dataReg_succeeds (h : f.Sound dead) (hn : f.Neat dead) (hL : f.regs.Lends L)
    (hroom : L.count < Reg.count) (hc : (f.entry (f.backing s)).constant? = none)
    (hne : ∀ r, (f.entry (f.backing s)).data ≠ .freg r)
    (ht : (f.entry (f.backing s)).type ≠ .double) :
    Succeeds (dataReg s) f fun _ f' => f'.regs.Lends L ∧ f.SameView f' ∧ f'.Neat dead := by
  unfold dataReg
  apply succeeds_look
  simp only [hc, Option.isSome_none, Bool.false_eq_true, if_false]
  split
  · next r hdata =>
    apply succeeds_regs
    exact succeeds_pure ⟨hL.touch r, .mapRegs f _, hn.mapRegs _⟩
  · next r hdata => exact absurd hdata (hne r)
  · next hdata =>
    apply succeeds_bind
    apply (alloc_succeeds h hL hroom).mono
    rintro r f₁ ⟨hL₁, hlt, hheld, hview, hun, -⟩
    apply succeeds_bind
    apply succeeds_emit
    apply succeeds_regs
    apply succeeds_bind
    apply succeeds_update
    apply succeeds_pure
    refine ⟨hL₁.dropTemp (hL.not_mem_temps hheld) (by simp) hlt,
      (hview.trans (.mapRegs f₁ _)).trans (.update _ _ fun _ => ⟨rfl, rfl, rfl, rfl⟩), ?_⟩
    refine ((hn.unload hview hun).mapRegs _).load (fun _ => ⟨rfl, rfl, rfl⟩) fun _ _ _ => ?_
    rw [entry_mapRegs, hview.type]
    exact ht

/-- Binding the tag of a slot succeeds if its type is unknown. -/
theorem tagReg_succeeds (h : f.Sound dead) (hn : f.Neat dead) (hL : f.regs.Lends L)
    (hroom : L.count < Reg.count) (ht : (f.entry (f.backing s)).type = .unknown) :
    Succeeds (tagReg s) f fun _ f' => f'.regs.Lends L ∧ f.SameView f' ∧ f'.Neat dead := by
  unfold tagReg
  apply succeeds_look
  dsimp only
  rw [if_pos ht]
  split
  · next r htag =>
    apply succeeds_regs
    exact succeeds_pure ⟨hL.touch r, .mapRegs f _, hn.mapRegs _⟩
  · next htag =>
    apply succeeds_bind
    apply (alloc_succeeds h hL hroom).mono
    rintro r f₁ ⟨hL₁, hlt, hheld, hview, hun, -⟩
    apply succeeds_bind
    apply succeeds_emit
    apply succeeds_regs
    apply succeeds_bind
    apply succeeds_update
    apply succeeds_pure
    refine ⟨hL₁.dropTemp (hL.not_mem_temps hheld) (by simp) hlt,
      (hview.trans (.mapRegs f₁ _)).trans (.update _ _ fun _ => ⟨rfl, rfl, rfl, rfl⟩), ?_⟩
    exact ((hn.unload hview hun).mapRegs _).load (fun _ => ⟨rfl, rfl, rfl⟩)
      fun _ hd hd' => absurd hd hd'

/-- Binding a slot known as a double to a double register succeeds. -/
theorem doubleReg_succeeds (h : f.Sound dead) (hn : f.Neat dead) (hL : f.regs.Lends L)
    (hroom : L.fcount < FReg.allocatable) (hl : f.Live dead (f.backing s))
    (hc : (f.entry (f.backing s)).constant? = none)
    (ht : (f.entry (f.backing s)).type = .double) :
    Succeeds (doubleReg s) f fun _ f' => f'.regs.Lends L ∧ f.SameView f' ∧ f'.Neat dead := by
  unfold doubleReg
  apply succeeds_look
  simp only [hc, ht, Option.isSome_none, Bool.false_eq_true, ne_eq, not_true, or_self, if_false]
  split
  · next r hdata =>
    apply succeeds_regs
    exact succeeds_pure ⟨hL.ftouch r, .mapRegs f _, hn.mapRegs _⟩
  · next r hdata => exact absurd ht ((hn _ hl).data r hdata)
  · next hdata =>
    apply succeeds_bind
    apply (allocDouble_succeeds h hL hroom).mono
    rintro r f₁ ⟨hL₁, hlt, hheld, hview, hun⟩
    apply succeeds_bind
    apply succeeds_emit
    apply succeeds_regs
    apply succeeds_bind
    apply succeeds_update
    apply succeeds_pure
    refine ⟨hL₁.dropFTemp (hL.not_mem_ftemps hheld) (by simp) hlt,
      (hview.trans (.mapRegs f₁ _)).trans (.update _ _ fun _ => ⟨rfl, rfl, rfl, rfl⟩), ?_⟩
    exact ((hn.unload hview hun).mapRegs _).load (fun _ => ⟨rfl, rfl, rfl⟩)
      fun _ hd _ => by cases hd

/-! ### Copies in temporaries -/

/-- What copying into a temporary does to the frame. -/
def Borrows (f : Frame) (dead : Option Slot) (L : Loans) (r : Reg) (f' : Frame) : Prop :=
  f'.regs.Lends (L.addTemp r) ∧ ¬ f.regs.Held r ∧ f.SameView f' ∧ f.Unloads f' ∧ f'.Neat dead

theorem loadTemp_succeeds (h : f.Sound dead) (hn : f.Neat dead) (hL : f.regs.Lends L)
    (hroom : L.count < Reg.count) (src : Operand) :
    Succeeds (loadTemp src) f (Borrows f dead L) := by
  unfold loadTemp
  apply succeeds_bind
  apply (alloc_succeeds h hL hroom).mono
  rintro r f₁ ⟨hL₁, hlt, hheld, hview, hun, -⟩
  apply succeeds_bind
  apply succeeds_emit
  exact succeeds_pure ⟨hL₁, hheld, hview, hun, hn.unload hview hun⟩

/-- A register can be copied into a temporary. -/
theorem copyReg_succeeds (h : f.Sound dead) (hn : f.Neat dead) (hL : f.regs.Lends L)
    (hroom : L.count + 1 < Reg.count) {src : Reg} (hsrc : src.index < Reg.count) :
    Succeeds (copyReg src) f (Borrows f dead L) := by
  have hpin : (f.mapRegs (·.setPinned src true)).Sound dead :=
    h.mapRegs (fun _ => by simp) fun _ => by simp
  have hroom' : (L.addPins [src]).count < Reg.count := by simpa using hroom
  unfold copyReg
  apply succeeds_bind
  rw [withPinned_eq]
  apply succeeds_marked
  apply (alloc_succeeds hpin (hL.pin hsrc) hroom').mono
  rintro r f₁ ⟨hL₁, hlt, hheld, hview, hun, -⟩
  apply succeeds_bind
  apply succeeds_emit
  apply succeeds_pure
  have hview' : f.SameView (if f.regs.isPinned src then f₁
      else f₁.mapRegs (·.setPinned src false)) := by
    split
    · exact (SameView.mapRegs f _).trans hview
    · exact ((SameView.mapRegs f _).trans hview).trans (.mapRegs f₁ _)
  have hun' : f.Unloads (if f.regs.isPinned src then f₁
      else f₁.mapRegs (·.setPinned src false)) := by
    split
    · exact (Unloads.mapRegs f _).trans hun
    · exact ((Unloads.mapRegs f _).trans hun).trans (.mapRegs f₁ _)
  refine ⟨Lends.restore (L := L.addTemp r) hL₁ (hL.pinned src) hsrc, ?_, hview', hun',
    hn.unload hview' hun'⟩
  intro hr
  apply hheld
  grind [Held]

/-- A payload can be copied unless it is in a double register. -/
theorem copyData_succeeds (h : f.Sound dead) (hn : f.Neat dead) (hL : f.regs.Lends L)
    (hroom : L.count + 1 < Reg.count) (hl : f.Live dead (f.backing s))
    (hne : ∀ r, (f.entry (f.backing s)).data ≠ .freg r) :
    Succeeds (copyData s) f (Borrows f dead L) := by
  have hroom' : L.count < Reg.count := Nat.lt_of_succ_lt hroom
  unfold copyData
  apply succeeds_look
  dsimp only
  split
  · exact loadTemp_succeeds h hn hL hroom' _
  · split
    · next src hdata =>
      refine copyReg_succeeds h hn hL hroom (lt_of_binding_ne_free (f := f.regs) ?_)
      rw [(h.data_iff _ src).2 ⟨hl, hdata⟩]
      simp
    · exact loadTemp_succeeds h hn hL hroom' _
    · next r hdata => exact absurd hdata (hne r)

/-- The tag of a slot of unknown type can be copied. -/
theorem copyTag_succeeds (h : f.Sound dead) (hn : f.Neat dead) (hL : f.regs.Lends L)
    (hroom : L.count + 1 < Reg.count) (hl : f.Live dead (f.backing s))
    (ht : (f.entry (f.backing s)).type = .unknown) :
    Succeeds (copyTag s) f (Borrows f dead L) := by
  have hroom' : L.count < Reg.count := Nat.lt_of_succ_lt hroom
  have htag? : (f.entry (f.backing s)).type.tag? = none := by rw [ht]; rfl
  unfold copyTag
  apply succeeds_look
  dsimp only
  cases hc : (f.entry (f.backing s)).constant? with
  | some v => exact loadTemp_succeeds h hn hL hroom' _
  | none =>
    rw [htag?]
    cases htag : (f.entry (f.backing s)).tag with
    | some src =>
      refine copyReg_succeeds h hn hL hroom
        (lt_of_binding_ne_free (f := f.regs) ?_)
      rw [(h.tag_iff _ src).2 ⟨hl, htag⟩]
      simp
    | none =>
      dsimp only
      rw [if_pos (.inl ht)]
      exact loadTemp_succeeds h hn hL hroom' _

/-- What copying into a double temporary does to the frame. -/
def BorrowsDouble (f : Frame) (dead : Option Slot) (L : Loans) (r : FReg) (f' : Frame) : Prop :=
  f'.regs.Lends (L.addFTemp r) ∧ f.SameView f' ∧ f'.Neat dead

theorem borrowsDouble_alloc (h : f.Sound dead) (hn : f.Neat dead) (hL : f.regs.Lends L)
    (hroom : L.fcount < FReg.allocatable) (i : FReg → Inst) :
    Succeeds (do
      let r ← allocDouble
      emit (i r)
      return r) f (BorrowsDouble f dead L) := by
  apply succeeds_bind
  apply (allocDouble_succeeds h hL hroom).mono
  rintro r f₁ ⟨hL₁, hlt, hheld, hview, hun⟩
  apply succeeds_bind
  apply succeeds_emit
  exact succeeds_pure ⟨hL₁, hview, hn.unload hview hun⟩

/-- Storing a slot. -/
theorem syncEntry_succeeds (hn : f.Neat dead) (s : Slot) :
    Succeeds (syncEntry s) f fun _ f' => f'.regs = f.regs ∧ f.SameView f' ∧ f'.Neat dead := by
  unfold syncEntry
  apply succeeds_look
  apply succeeds_bind
  apply succeeds_emitAll
  apply succeeds_update
  exact ⟨rfl, .update f s fun _ => ⟨rfl, rfl, rfl, rfl⟩,
    hn.load (fun _ => ⟨rfl, rfl, rfl⟩) fun _ hd hd' => absurd hd hd'⟩

/-- A number can be copied from any slot but a constant that is none. -/
theorem copyNumber_succeeds (h : f.Tracks dead m env) (hn : f.Neat dead) (hL : f.regs.Lends L)
    (hroom : L.count < Reg.count) (hfroom : L.fcount + 1 < FReg.allocatable)
    (hl : f.Live dead s)
    (hc : ∀ v, (f.entry (f.backing s)).constant? = some v → v.double?.isSome) :
    Succeeds (copyNumber s) f (BorrowsDouble f dead L) := by
  have hfroom' : L.fcount < FReg.allocatable := Nat.lt_of_succ_lt hfroom
  unfold copyNumber
  apply succeeds_look
  dsimp only
  cases hv : (f.entry (f.backing s)).constant? with
  | some v =>
    obtain ⟨d, hd⟩ := Option.isSome_iff_exists.1 (hc v hv)
    simp only [hd]
    exact borrowsDouble_alloc h.sound hn hL hfroom' _
  | none =>
    obtain ⟨hlb, -, hown⟩ := h.own_backing hl hv
    generalize f.backing s = b at *
    have hb := backing_of_own hown
    split
    case h_1 heq => cases heq
    case h_2 htype =>
      have hdata := (dataReg_succeeds h.sound hn hL hroom (s := b) (by rwa [hb])
        (by rw [hb]; exact h.sound.ne_freg hlb (by simp [htype]))
        (by simp [hb, htype])).ensures (dataReg_ensures h hlb)
      apply succeeds_bind
      apply hdata.mono
      rintro src f₁ ⟨⟨hL₁, hview₁, hn₁⟩, m₁, hloads, -, hdata₁⟩
      rw [hb] at hdata₁
      have hbind := (hloads.tracks.sound.data_iff b src).2 ⟨hview₁.live.2 hlb, hdata₁⟩
      have hlt := lt_of_binding hbind rfl
      have hpin : (f₁.mapRegs (·.setPinned src true)).Sound dead :=
        hloads.tracks.sound.mapRegs (fun _ => by simp) fun _ => by simp
      apply succeeds_bind
      rw [withPinned_eq]
      apply succeeds_marked
      apply (allocDouble_succeeds hpin (hL₁.pin hlt) (by simpa using hfroom')).mono
      rintro r f₂ ⟨hL₂, -, -, hview₂, hun₂⟩
      apply succeeds_bind
      apply succeeds_emit
      apply succeeds_pure
      refine ⟨Lends.restore (L := L.addFTemp r) hL₂ (hL₁.pinned src) hlt, ?_, ?_⟩
      · have hview := hview₁.trans ((SameView.mapRegs f₁ _).trans hview₂)
        split
        · exact hview
        · exact hview.trans (.mapRegs f₂ _)
      · have hn₂ := (hn₁.mapRegs _).unload hview₂ hun₂
        split
        · exact hn₂
        · exact hn₂.mapRegs _
    case h_3 src _ hdata _ =>
      have hbind := (h.sound.fdata_iff b src).2 ⟨hlb, hdata⟩
      have hlt := lt_of_fbinding hbind rfl
      have hpin : (f.mapRegs (·.setFPinned src true)).Sound dead :=
        h.sound.mapRegs (fun _ => by simp) fun _ => by simp
      apply succeeds_bind
      rw [withDoublePinned_eq]
      apply succeeds_marked
      apply (allocDouble_succeeds hpin (hL.fpin hlt) (by simpa using hfroom)).mono
      rintro r f₁ ⟨hL₁, -, -, hview₁, hun₁⟩
      apply succeeds_bind
      apply succeeds_emit
      apply succeeds_pure
      refine ⟨Lends.frestore (L := L.addFTemp r) hL₁ (hL.fpinned src) hlt, ?_, ?_⟩
      · have hview := (SameView.mapRegs f _).trans hview₁
        split
        · exact hview
        · exact hview.trans (.mapRegs f₁ _)
      · have hn₁ := (hn.mapRegs _).unload hview₁ hun₁
        split
        · exact hn₁
        · exact hn₁.mapRegs _
    case h_4 =>
      apply succeeds_bind
      apply ((syncEntry_succeeds hn b).ensures (syncEntry_ensures h hlb)).mono
      rintro - f₁ ⟨⟨hregs, hview₁, hn₁⟩, m₁, hloads, -⟩
      apply (borrowsDouble_alloc hloads.tracks.sound hn₁ (hregs ▸ hL) hfroom' _).mono
      rintro r f₂ ⟨hL₂, hview₂, hn₂⟩
      exact ⟨hL₂, hview₁.trans hview₂, hn₂⟩

/-! ### Whole values -/

/-- A value can be read from any slot. -/
theorem source_succeeds (h : f.Tracks dead m env) (hn : f.Neat dead) (hL : f.regs.Lends L)
    (hroom : L.count + 1 < Reg.count) (hfroom : L.fcount < FReg.allocatable)
    (hl : f.Live dead s) : Succeeds (source s) f fun src f' =>
      f'.regs.Lends (L.pinSource src) ∧ f.SameView f' ∧ f'.Neat dead := by
  have hroom' : L.count < Reg.count := Nat.lt_of_succ_lt hroom
  unfold source
  apply succeeds_look
  dsimp only
  cases hv : (f.entry (f.backing s)).constant? with
  | some v => exact succeeds_pure ⟨hL, .refl f, hn⟩
  | none =>
    obtain ⟨hlb, -, hown⟩ := h.own_backing hl hv
    generalize f.backing s = b at *
    have hb := backing_of_own hown
    -- every way of reading the payload ends with its register pinned
    have payload : ∀ {f₀ : Frame} {m₀ : Machine} {L₀ : Loans}, f₀.Tracks dead m₀ env →
        f₀.Neat dead → f₀.regs.Lends L₀ → L₀.count < Reg.count → f.SameView f₀ →
        (f.entry b).type ≠ .double → ∀ src : Reg → Source,
        Succeeds (do
          let payload ← dataReg b
          updateRegs (·.setPinned payload true)
          return src payload) f₀ fun v f' => ∃ r, v = src r ∧
            f'.regs.Lends (L₀.addPins [r]) ∧ f.SameView f' ∧ f'.Neat dead := by
      intro f₀ m₀ L₀ h₀ hn₀ hL₀ hroom₀ hview₀ ht src
      have hb₀ : f₀.backing b = b := (hview₀.backing b).trans hb
      have hlb₀ := hview₀.live.2 hlb
      have ht₀ : (f₀.entry (f₀.backing b)).type ≠ .double := by rwa [hb₀, hview₀.type]
      have hc₀ : (f₀.entry (f₀.backing b)).constant? = none := by
        rw [hb₀, hview₀.constant?, hv]
      apply succeeds_bind
      apply ((dataReg_succeeds h₀.sound hn₀ hL₀ hroom₀ hc₀
        (h₀.sound.ne_freg (hb₀.symm ▸ hlb₀) ht₀) ht₀).ensures (dataReg_ensures h₀ hlb₀)).mono
      rintro r f₁ ⟨⟨hL₁, hview₁, hn₁⟩, m₁, hloads, -, hdata₁⟩
      rw [hb₀] at hdata₁
      have hbind := (hloads.tracks.sound.data_iff b r).2 ⟨hview₁.live.2 hlb₀, hdata₁⟩
      have hlt := lt_of_binding hbind rfl
      apply succeeds_regs
      exact succeeds_pure ⟨r, rfl, hL₁.pin hlt, (hview₀.trans hview₁).trans (.mapRegs f₁ _),
        hn₁.mapRegs _⟩
    by_cases hdouble : (f.entry b).type = .double
    · simp only [hdouble]
      apply succeeds_bind
      apply ((doubleReg_succeeds h.sound hn hL hfroom (hb.symm ▸ hlb) (by rwa [hb])
        (by rwa [hb])).ensures (doubleReg_ensures h hlb)).mono
      rintro r f₁ ⟨⟨hL₁, hview₁, hn₁⟩, m₁, hloads, -, -, hdata₁⟩
      rw [hb] at hdata₁
      have hbind := (hloads.tracks.sound.fdata_iff b r).2 ⟨hview₁.live.2 hlb, hdata₁⟩
      have hlt := lt_of_fbinding hbind rfl
      apply succeeds_regs
      exact succeeds_pure ⟨hL₁.fpin hlt, hview₁.trans (.mapRegs f₁ _), hn₁.mapRegs _⟩
    · by_cases hunknown : (f.entry b).type = .unknown
      · simp only [hunknown]
        apply succeeds_bind
        apply ((tagReg_succeeds h.sound hn hL hroom' (by rwa [hb])).ensures
          (tagReg_ensures h hlb)).mono
        rintro tag f₁ ⟨⟨hL₁, hview₁, hn₁⟩, m₁, hloads, -, -, htag₁⟩
        rw [hb] at htag₁
        have hbind := (hloads.tracks.sound.tag_iff b tag).2 ⟨hview₁.live.2 hlb, htag₁⟩
        have hlt := lt_of_binding hbind rfl
        have hpin := loads_pin hloads.tracks tag
        apply succeeds_regs
        apply (payload hpin.tracks (hn₁.mapRegs _) (hL₁.pin hlt) (by simpa using hroom)
          (hview₁.trans hpin.view) hdouble (.regs tag)).mono
        rintro _ f₂ ⟨r, rfl, hf₂⟩
        exact hf₂
      · have key := payload h hn hL hroom' (.refl f) hdouble
          (.typed ((f.entry b).type.tag?.getD .undefined))
        split
        case h_1 heq => cases heq
        case h_2 hd => exact absurd hd hdouble
        case h_3 hu => exact absurd hu hunknown
        case h_4 =>
          apply key.mono
          rintro _ f₁ ⟨r, rfl, hf₁⟩
          exact hf₁

end FrameM

end FastPath
