import FastPath.Proofs.Frame.Progress
import FastPath.Proofs.Frame.Store

/-!
# Assigning succeeds

Assigning a slot first gives the copies of its old value an owner, then frees its registers,
and then lets it take over the registers of the source. None of these steps fails on a neat
frame with enough registers, and the frame is neat afterwards.

## Main results

* `FrameM.store_succeeds`: a slot can be assigned from any higher slot.
* `FrameM.storeVar_succeeds`, `FrameM.shimmy_succeeds`, `FrameM.swap_succeeds`: the operations
  built from it.
-/

namespace FastPath

open Frame RegisterFile Entry

/-! ### Neat frames -/

theorem Entry.neat_constant {v : Value} (hv : v.tag ≠ .object) : (constant v).Neat :=
  ⟨nofun, fun h => absurd rfl h, by rintro w ⟨⟩; exact hv⟩

theorem Entry.neat_copy (b : Slot) (synced : Bool) :
    ({ copy b with dataSynced := synced, tagSynced := synced } : Entry).Neat :=
  ⟨nofun, fun h => absurd rfl h, nofun⟩

theorem Entry.neat_inMemory (types : TypeSet) : (inMemory types).Neat :=
  ⟨nofun, fun h => absurd rfl h, nofun⟩

/-- A copy is of no literal under construction. -/
theorem Entry.Neat.redirect {e : Entry} (h : e.Neat) {b b' : Slot} (hrole : e.role = .copyOf b) :
    { e with role := .copyOf b' }.Neat := by
  refine ⟨h.data, fun hi => ?_, nofun⟩
  rw [(h.init hi).1] at hrole
  cases hrole

namespace Frame

variable {f : Frame} {dead : Option Slot} {s t : Slot} {e : Entry}

theorem Neat.bumpGeneration (h : f.Neat dead) : f.bumpGeneration.Neat dead := h

theorem Neat.setEntry (h : f.Neat dead) (he : e.Neat) : (f.setEntry s e).Neat dead :=
  h.update fun _ => he

/-- An entry that takes over a value with its notes is neat. -/
theorem Neat.adopted (h : f.Neat dead) (hs : f.Live dead s)
    (hd : ∀ r, e.data = .reg r → (f.entry s).type ≠ .double) (hr : e.role = .own)
    (ht : e.type = (f.entry s).type) (hi : e.init = (f.entry s).init) : e.Neat :=
  ⟨fun r he => ht ▸ hd r he, fun he => ⟨hr, ht ▸ ((h s hs).init (hi ▸ he)).2⟩, by simp [hr]⟩

/-- A dead slot comes to life again. -/
theorem Neat.revive (h : f.Neat (some t)) (hsize : t < f.entries.size) (he : e.Neat) :
    (f.setEntry t e).Neat none := by
  intro s hl
  rw [entry_setEntry]
  split
  · exact he
  · next hne => exact h s ⟨hl.1, fun hs => hne ⟨Option.some.inj hs, hsize⟩⟩

theorem Neat.release (h : f.Neat none) (t : Slot) : (f.release t).Neat (some t) := by
  intro s hl
  rw [entry_release, if_neg fun hs => hl.2 (by rw [hs.1])]
  exact h s ⟨hl.1, by simp⟩

theorem Neat.pop (h : f.Neat none) : f.pop.Neat none := by
  intro s hl
  have hlt : s < f.sp - 1 := hl.1
  have hne : f.peek 1 ≠ s := Ne.symm (Nat.ne_of_lt hlt)
  change ((f.release (f.peek 1)).entry s).Neat
  rw [entry_release, if_neg fun hs => hne hs.1]
  exact h s ⟨Nat.lt_of_lt_of_le hlt (Nat.sub_le _ _), by simp⟩

theorem Neat.popN (h : f.Neat none) (n : Nat) : (popN n f).Neat none := by
  induction n generalizing f with
  | zero => exact h
  | succ n ih => exact ih h.pop

theorem Neat.push (h : f.Neat none) (hsp : f.sp ≤ f.entries.size) (he : e.Neat) :
    (f.push e).Neat none := by
  intro s hl
  rw [entry_push f e s hsp]
  split
  · exact he
  · next hne => exact h s ⟨Nat.lt_of_le_of_ne (Nat.le_of_lt_succ hl.1) hne, by simp⟩

/-- No constant is an object. -/
theorem Neat.constant (h : f.Neat dead) {v : Value} (hl : f.Live dead (f.backing s))
    (hc : f.constant? s = some v) : v.tag ≠ .object := by
  refine (h _ hl).constant v ?_
  simp only [constant?, backingEntry, Entry.constant?] at hc
  split at hc
  · next w hrole => exact Option.some.inj hc ▸ hrole
  · cases hc

theorem Neat.pushCopy (h : f.Neat none) (hsp : f.sp ≤ f.entries.size)
    (hl : f.Live none (f.backing s)) : (f.pushCopy s).Neat none := by
  unfold Frame.pushCopy
  split
  · next hc => exact h.push hsp (neat_constant (h.constant hl hc))
  · exact h.push hsp (neat_copy _ false)

theorem Neat.redirect (h : f.Neat dead) {cs : List Slot} {b b' : Slot}
    (hcs : ∀ c ∈ cs, c < f.entries.size ∧ (f.entry c).role = .copyOf b) :
    (f.redirect cs b').Neat dead := by
  intro s hl
  obtain ⟨-, -, hsp, -⟩ := redirect_fields cs b' f
  have he := h s ⟨hsp ▸ hl.1, hl.2⟩
  rw [entry_redirect fun c hc => (hcs c hc).1]
  split
  · next hs => exact he.redirect (hcs s hs).2
  · exact he

/-- Handing over a value leaves the frame neat. -/
theorem Neat.handOver (h : f.Neat (some t)) (hs : f.Sound (some t)) (hl : f.Live (some t) s)
    (ht : t < s) {g : RegisterFile} : (f.handOver s t g).Neat none := by
  intro s' hl'
  cases handOverCase hs hl ht hl' with
  | target _ hent =>
    rw [hent]
    exact ⟨(h s hl).data, (h s hl).init, (h s hl).constant⟩
  | source _ hent =>
    rw [hent]
    exact neat_copy t _
  | copy hl'' hrole _ _ hent =>
    rw [hent]
    exact (h s' hl'').redirect hrole
  | other hl'' _ _ _ hent =>
    rw [hent]
    exact h s' hl''

/-- The last step of an assignment leaves the frame neat. -/
theorem Neat.handedOver {f₁ : Frame} (h : f₁.Neat (some t)) (hs : f₁.Sound (some t))
    (hview : f.SameView f₁) (hl : f.Live (some t) s) (ht : t < s)
    (hown : (f.entry s).role = .own) {g : RegisterFile} {L : Loans} (hg : g.Lends L)
    {d : DataLoc} {tag : Option Reg} (hdata : (f₁.entry s).data = d)
    (htag : (f₁.entry s).tag = tag) {f' : Frame}
    (hf' : f' = ((({ f₁ with regs := g }.setEntry t
      { unsynced (f.entry s).type (f.entry s).types with
        init := (f.entry s).init
        data := d
        tag := tag }).setEntry s
      { copy t with
        dataSynced := f₁.isSynced s
        tagSynced := f₁.isSynced s }).redirect (f₁.copiesOf s) t).bumpGeneration) :
    f'.regs.Lends L ∧ f'.Neat none := by
  subst hdata htag hf'
  rw [← unsync_eq ((hview.role s).trans hown) (hview.type s) (hview.types s) (hview.init s)]
  refine ⟨?_, (h.handOver hs (hview.live.2 hl) ht (g := g)).bumpGeneration⟩
  rw [regs_bumpGeneration, (redirect_fields _ _ _).2.2.2.2.2.2.1]
  exact hg

end Frame

/-! ### Registers on loan -/

namespace RegisterFile.Lends

variable {g : RegisterFile} {L : Loans}

theorem comm {r r' : Reg} (h : g.Lends ((L.addTemp r).addTemp r')) :
    g.Lends ((L.addTemp r').addTemp r) := by
  obtain ⟨h₁, h₂, h₃, h₄⟩ := h
  constructor <;> grind [Loans.addTemp]

/-- Freeing the registers of a slot takes none that is on loan. -/
theorem release {f : Frame} {s : Slot} (h : f.regs.Lends L) (hs : f.Sound none) (hlt : s < f.sp) :
    (f.release s).regs.Lends L := by
  have hl := live_of_lt hlt
  have hd := fun r => hs.data_iff s r
  have ht := fun r => hs.tag_iff s r
  have hfd := fun r => hs.fdata_iff s r
  change (freeTag (freeData f.regs (f.entry s).data) (f.entry s).tag).Lends L
  generalize f.entry s = e at *
  have key : (freeData f.regs e.data).Lends L := by
    unfold freeData
    split
    · exact h
    · next r hr => exact h.bind (by rw [(hd r).2 ⟨hl, hr⟩]; simp) (by simp)
    · next r hr => exact h.fbind (by rw [(hfd r).2 ⟨hl, hr⟩]; simp) (by simp)
  unfold freeTag
  split
  · next r hr =>
    refine key.bind ?_ (by simp)
    have hb : f.regs.binding r ≠ .temp := by
      rw [(ht r).2 ⟨hl, hr⟩]
      simp
    exact fun hk => hb ((h.temp r).2 ((key.temp r).1 hk))
  · exact key

theorem pop {f : Frame} (h : f.regs.Lends L) (hs : f.Sound none) (hpos : 0 < f.sp) :
    f.pop.regs.Lends L :=
  h.release hs (Nat.sub_lt hpos Nat.one_pos)

theorem popN {f : Frame} {m : Machine} {env : Slot → Value} (h : f.regs.Lends L)
    (ht : f.Tracks none m env) {n : Nat} (hn : n ≤ f.sp) : (popN n f).regs.Lends L := by
  induction n generalizing f with
  | zero => exact h
  | succ n ih =>
    have hpos : 0 < f.sp := Nat.lt_of_lt_of_le (Nat.succ_pos n) hn
    exact ih (h.pop ht.sound hpos) (ht.pop hpos) (Nat.le_sub_one_of_lt hn)

end RegisterFile.Lends

namespace FrameM

variable {f : Frame} {m : Machine} {env : Slot → Value} {s t : Slot} {L : Loans}

/-! ### Assigning -/

/-- Tag and payload of an owned value of unknown type can be loaded. -/
theorem succeeds_loadWords {dead : Option Slot} {β : Type} {k : Reg → Reg → FrameM β}
    {R : β → Frame → Prop} (h : f.Tracks dead m env) (hn : f.Neat dead) (hL : f.regs.Lends L)
    (hroom : L.count + 1 < Reg.count) (hl : f.Live dead s) (hown : (f.entry s).role = .own)
    (htype : (f.entry s).type = .unknown)
    (hk : ∀ tag payload f' m', f.Loads dead m env f' m' → (f'.entry s).tag = some tag →
      (f'.entry s).data = .reg payload → f'.regs.Lends L → f'.Neat dead →
      Succeeds (k tag payload) f' R) :
    Succeeds (do
      let tag ← tagReg s
      let payload ← withPinned tag (dataReg s)
      k tag payload) f R := by
  have hb := backing_of_own hown
  apply succeeds_bind
  apply ((tagReg_succeeds h.sound hn hL (by omega) (by rwa [hb])).ensures
    (tagReg_ensures h hl)).mono
  rintro tag f₁ ⟨⟨hL₁, hview₁, hn₁⟩, m₁, hloads₁, -, -, htag₁⟩
  rw [hb] at htag₁
  have hl₁ := hview₁.live.2 hl
  have hbind : f₁.regs.binding tag = .tag s := (hloads₁.tracks.sound.tag_iff s tag).2 ⟨hl₁, htag₁⟩
  have hlt := lt_of_binding hbind rfl
  have hpin := loads_pin hloads₁.tracks tag
  have hview := hview₁.trans hpin.view
  have hb₁ := (hview.backing s).trans hb
  have hlp := hview.live.2 hl
  have ht₁ : ((f₁.mapRegs (·.setPinned tag true)).entry s).type ≠ .double := by
    rw [hview.type, htype]
    simp
  apply succeeds_bind
  rw [withPinned_eq]
  apply succeeds_marked
  apply ((dataReg_succeeds hpin.tracks.sound (hn₁.mapRegs _) (hL₁.pin hlt) (by simpa using hroom)
    (by rw [hb₁, hview.constant?, Entry.constant?, hown])
    (by rw [hb₁]; exact hpin.tracks.sound.ne_freg hlp ht₁) (by rwa [hb₁])).ensures
      (dataReg_ensures hpin.tracks hlp)).mono
  rintro payload f₂ ⟨⟨hL₂, -, hn₂⟩, m₂, hloads₂, -, hdata₂⟩
  rw [hb₁] at hdata₂
  -- the pin keeps the register of the tag
  have htag₂ : (f₂.entry s).tag = some tag := by
    have hk := hloads₂.keeps.binding tag (.inr (by simp [hlt]))
    exact ((hloads₂.tracks.sound.tag_iff s tag).1 (hk.trans (by simpa using hbind))).2
  refine hk tag payload _ m₂ (hloads₁.trans hloads₂.unpin) ?_ ?_
    (Lends.restore hL₂ (hL₁.pinned tag) hlt) ?_
  · split <;> exact htag₂
  · split <;> exact hdata₂
  · split
    · exact hn₂
    · exact hn₂.mapRegs _

/-- Registers of an owned value can change hands. -/
theorem transfer_succeeds (h : f.Tracks (some t) m env) (hn : f.Neat (some t))
    (hL : f.regs.Lends L) (hroom : L.count + 1 < Reg.count) (hfroom : L.fcount < FReg.allocatable)
    (hl : f.Live (some t) s) (hown : (f.entry s).role = .own) (ht : t < s) :
    Succeeds (transfer s t) f fun _ f' => f'.regs.Lends L ∧ f'.Neat none := by
  have hb := backing_of_own hown
  have hc : (f.entry (f.backing s)).constant? = none := by simp [hb, Entry.constant?, hown]
  have hlb : f.Live (some t) (f.backing s) := hb.symm ▸ hl
  unfold transfer
  rw [if_neg (Nat.not_le_of_lt ht)]
  simp only [pure_bind]
  apply succeeds_look
  split
  case h_1 htype =>
    apply succeeds_bind
    apply ((doubleReg_succeeds h.sound hn hL hfroom hlb hc (by rwa [hb])).ensures
      (doubleReg_ensures h hl)).mono
    rintro r f₁ ⟨⟨hL₁, hview, hn₁⟩, m₁, hloads, -, -, hdata⟩
    rw [hb] at hdata
    have hs₁ := hloads.tracks.sound
    have hl₁ := hview.live.2 hl
    have htag := tag_eq_none hs₁ hl₁ (by simp [hview.type, htype])
    have hg := hL₁.fbind (b := .data t)
      (by rw [(hs₁.fdata_iff s r).2 ⟨hl₁, hdata⟩]; simp) (by simp)
    refine succeeds_regs (succeeds_update ?_)
    exact hn₁.handedOver hs₁ hview hl ht hown hg hdata htag rfl
  case h_2 htype =>
    refine succeeds_loadWords h hn hL hroom hl hown htype
      fun tag payload f₁ m₁ hloads htag hdata hL₁ hn₁ => ?_
    have hs₁ := hloads.tracks.sound
    have hl₁ := hloads.view.live.2 hl
    have hbind := (hs₁.data_iff s payload).2 ⟨hl₁, hdata⟩
    have hne : tag ≠ payload := by
      rintro rfl
      rw [(hs₁.tag_iff s tag).2 ⟨hl₁, htag⟩] at hbind
      cases hbind
    have hg₁ := hL₁.bind (r := tag) (b := .tag t)
      (by rw [(hs₁.tag_iff s tag).2 ⟨hl₁, htag⟩]; simp) (by simp)
    have hg₂ := hg₁.bind (r := payload) (b := .data t) (by grind) (by simp)
    refine succeeds_regs (succeeds_bind (succeeds_updateRegs
      (succeeds_update ?_)))
    exact hn₁.handedOver hs₁ hloads.view hl ht hown hg₂ hdata htag rfl
  case h_3 hnd hnu =>
    apply succeeds_bind
    apply ((dataReg_succeeds h.sound hn hL (by omega) hc
      (h.sound.ne_freg hlb (by rwa [hb])) (by rwa [hb])).ensures (dataReg_ensures h hl)).mono
    rintro r f₁ ⟨⟨hL₁, hview, hn₁⟩, m₁, hloads, -, hdata⟩
    rw [hb] at hdata
    have hs₁ := hloads.tracks.sound
    have hl₁ := hview.live.2 hl
    have htag := tag_eq_none hs₁ hl₁ (by rwa [hview.type])
    have hg := hL₁.bind (b := .data t)
      (by rw [(hs₁.data_iff s r).2 ⟨hl₁, hdata⟩]; simp) (by simp)
    refine succeeds_regs (succeeds_update ?_)
    exact hn₁.handedOver hs₁ hview hl ht hown hg hdata htag rfl

section

variable (h : f.Tracks none m env) (hn : f.Neat none) (hL : f.regs.Lends L)
  (hroom : L.count + 3 < Reg.count) (hfroom : L.fcount + 1 < FReg.allocatable)
include h hn hL hroom hfroom

/-! ### Giving copies an owner -/

section

variable {b : Slot} (hlb : f.Live none b) (hown : (f.entry b).role = .own)
include hlb hown

/-- A number known as a double is copied into a double register. -/
theorem materialize_double_succeeds :
    Succeeds (do
      let r ← copyNumber b
      updateRegs (·.fbind r (.data s))
      let owned ← pure { Entry.unsynced (f.entry b).type (f.entry b).types with
        init := (f.entry b).init, data := .freg r }
      update fun f => (f.setEntry s owned).bumpGeneration) f
      fun _ f' => f'.regs.Lends L ∧ f'.Neat none := by
  have hb := backing_of_own hown
  apply succeeds_bind
  apply ((copyNumber_succeeds h hn hL (by omega) hfroom hlb (by
    rw [hb]
    intro v hv
    simp [Entry.constant?, hown] at hv)).ensures
      (copyNumber_ensures h hlb)).mono
  rintro r f₁ ⟨⟨hL₁, -, hn₁⟩, m₁, -, htemp, hheld, -⟩
  have hltr := lt_of_fbinding htemp rfl
  refine succeeds_regs (succeeds_bind (succeeds_pure
    (succeeds_update ⟨?_, ?_⟩)))
  · exact hL₁.dropFTemp (hL.not_mem_ftemps hheld) (by simp) hltr
  · refine Neat.bumpGeneration ((hn₁.mapRegs _).setEntry ?_)
    exact hn.adopted hlb (by simp) rfl rfl rfl

omit hfroom in
/-- Both words of a value of unknown type are copied. -/
theorem materialize_unknown_succeeds (htype : (f.entry b).type = .unknown) :
    Succeeds (do
      let tag ← copyTag b
      let payload ← withPinned tag (copyData b)
      updateRegs (·.bind tag (.tag s))
      updateRegs (·.bind payload (.data s))
      let owned ← pure { unsynced (f.entry b).type (f.entry b).types with
        init := (f.entry b).init, data := .reg payload, tag := some tag }
      update fun f => (f.setEntry s owned).bumpGeneration) f
      fun _ f' => f'.regs.Lends L ∧ f'.Neat none := by
  have hb := backing_of_own hown
  apply succeeds_bind
  apply ((copyTag_succeeds h.sound hn hL (by omega) (hb.symm ▸ hlb) (by rwa [hb])).ensures
    (copyTag_ensures h hlb)).mono
  rintro tag f₁ ⟨⟨hL₁, hheld, hview₁, -, hn₁⟩, m₁, hloads₁, htemp₁, -, -⟩
  have hltt := lt_of_binding htemp₁ rfl
  have hpin := loads_pin hloads₁.tracks tag
  have hview := hview₁.trans hpin.view
  have hb₁ := (hview.backing b).trans hb
  have hlb₁ : (f₁.mapRegs (·.setPinned tag true)).Live none
      ((f₁.mapRegs (·.setPinned tag true)).backing b) := by
    rw [hb₁]
    exact hview.live.2 hlb
  have hne₁ := hpin.tracks.sound.ne_freg hlb₁ (by
    rw [hb₁, hview.type, htype]
    simp)
  apply succeeds_bind
  rw [withPinned_eq]
  apply succeeds_marked
  apply (copyData_succeeds hpin.tracks.sound (hn₁.mapRegs _) (hL₁.pin hltt) (by
    simp only [Loans.count_addPins, Loans.count_addTemp, List.length_singleton]
    omega) hlb₁ hne₁).mono
  rintro payload f₂ ⟨hL₂, hheld₂, -, -, hn₂⟩
  have hL₃ := Lends.restore (f := f₁) (r := tag)
    (L := (L.addTemp tag).addTemp payload) hL₂ (hL₁.pinned tag) hltt
  have hnp : payload ∉ (L.addTemp tag).temps := fun hm => hheld₂ (.inl (by
    rw [regs_mapRegs, binding_setPinned]
    exact (hL₁.temp payload).2 hm))
  have hltp : payload.index < Reg.count := by
    have := (hL₂.temp payload).2 (by simp [Loans.addTemp])
    exact lt_of_binding this rfl
  have hn₃ : (if f₁.regs.isPinned tag then f₂
      else f₂.mapRegs (·.setPinned tag false)).Neat none := by
    split
    · exact hn₂
    · exact hn₂.mapRegs _
  generalize (if f₁.regs.isPinned tag then f₂
    else f₂.mapRegs (·.setPinned tag false)) = f₃ at hL₃ hn₃
  refine succeeds_regs (succeeds_bind (succeeds_updateRegs
    (succeeds_bind (succeeds_pure (succeeds_update ⟨?_, ?_⟩)))))
  · simp only [Loans.addTemp, List.mem_cons, not_or] at hnp
    have hne : tag ∉ (L.addTemp payload).temps := by
      simp only [Loans.addTemp, List.mem_cons, not_or]
      exact ⟨Ne.symm hnp.1, hL.not_mem_temps hheld⟩
    exact (hL₃.comm.dropTemp hne (by simp) hltt).dropTemp hnp.2 (by simp) hltp
  · refine Neat.bumpGeneration (((hn₃.mapRegs _).mapRegs _).setEntry ?_)
    exact hn.adopted hlb (fun _ _ => by simp [htype]) rfl rfl rfl

omit hfroom in
/-- The payload of a value of another known type is copied. -/
theorem materialize_tagged_succeeds (hnd : (f.entry b).type ≠ .double) :
    Succeeds (do
      let payload ← copyData b
      updateRegs (·.bind payload (.data s))
      let owned ← pure { unsynced (f.entry b).type (f.entry b).types with
        init := (f.entry b).init, data := .reg payload }
      update fun f => (f.setEntry s owned).bumpGeneration) f
      fun _ f' => f'.regs.Lends L ∧ f'.Neat none := by
  have hb := backing_of_own hown
  apply succeeds_bind
  apply ((copyData_succeeds h.sound hn hL (by omega) (hb.symm ▸ hlb) (by
    rw [hb]
    exact h.sound.ne_freg hlb hnd)).ensures (copyData_ensures h hlb)).mono
  rintro r f₁ ⟨⟨hL₁, hheld, -, -, hn₁⟩, m₁, -, htemp, -⟩
  have hltr := lt_of_binding htemp rfl
  refine succeeds_regs (succeeds_bind (succeeds_pure
    (succeeds_update ⟨?_, ?_⟩)))
  · exact hL₁.dropTemp (hL.not_mem_temps hheld) (by simp) hltr
  · refine Neat.bumpGeneration ((hn₁.mapRegs _).setEntry ?_)
    exact hn.adopted hlb (fun _ _ => hnd) rfl rfl rfl

end

/-- A copy can be given registers of its own. -/
theorem materialize_succeeds (hs : s < f.sp) :
    Succeeds (materialize s) f fun _ f' => f'.regs.Lends L ∧ f'.Neat none := by
  unfold materialize
  apply succeeds_look
  cases hrole : (f.entry s).role with
  | own | constant v =>
    simp only [copyOf?, hrole]
    exact succeeds_pure ⟨hL, hn⟩
  | copyOf b =>
    simp only [copyOf?, hrole]
    obtain ⟨hlt, -, hown⟩ := h.sound.copy s b ⟨hs, by simp⟩ hrole
    have hlb : f.Live none b := ⟨Nat.lt_trans hlt hs, by simp⟩
    split
    · refine succeeds_bind (succeeds_pure (succeeds_update ⟨hL, ?_⟩))
      refine Neat.bumpGeneration (hn.setEntry ?_)
      exact hn.adopted hlb (by simp [unsynced, synced]) rfl rfl rfl
    · split
      case h_1 => exact materialize_double_succeeds h hn hL hroom hfroom hlb hown
      case h_2 htype => exact materialize_unknown_succeeds h hn hL hroom hlb hown htype
      case h_3 hnd _ => exact materialize_tagged_succeeds h hn hL hroom hlb hown hnd

/-- The copies of a slot can be given another owner. -/
theorem uncopy_succeeds :
    Succeeds (uncopy s) f fun _ f' => f'.regs.Lends L ∧ f'.Neat none := by
  unfold uncopy
  apply succeeds_look
  split
  · exact succeeds_pure ⟨hL, hn⟩
  · next first rest hcopies =>
    have hfirst := mem_copiesOf.1 (hcopies ▸ List.mem_cons_self : first ∈ f.copiesOf s)
    have hrest : ∀ c ∈ rest, c < f.sp ∧ s < c ∧ (f.entry c).role = .copyOf s := fun c hc =>
      mem_copiesOf.1 (hcopies ▸ List.mem_cons_of_mem first hc : c ∈ f.copiesOf s)
    apply succeeds_bind
    apply ((materialize_succeeds h hn hL hroom hfroom hfirst.1).ensures
      (materialize_copy_ensures h ⟨hfirst.1, by simp⟩ hfirst.2.2)).mono
    rintro - f₁ ⟨⟨hL₁, hn₁⟩, m₁, hsh, ha⟩
    apply succeeds_update
    obtain ⟨-, -, -, -, -, -, hregs, -⟩ := redirect_fields rest first f₁
    refine ⟨show (f₁.redirect rest first).regs.Lends L from hregs ▸ hL₁, hn₁.redirect (b := s) ?_⟩
    intro c hc
    obtain ⟨hlt, -, hrole⟩ := hrest c hc
    refine ⟨Nat.lt_of_lt_of_le (ha.sp.symm ▸ hlt) hsh.tracks.sound.sp_le, ?_⟩
    rw [(ha.other c (Ne.symm (Nat.ne_of_lt (lt_of_copiesOf hcopies c hc)))).1]
    exact hrole

/-! ### Any higher slot -/

/-- A slot can be assigned from any higher slot. -/
theorem store_succeeds (hs : s < f.sp) (ht : t < s) :
    Succeeds (store t s) f fun _ f' => f'.regs.Lends L ∧ f'.Neat none := by
  unfold store
  apply succeeds_look
  split
  · exact succeeds_pure ⟨hL, hn⟩
  rw [if_neg (Nat.not_le_of_lt ht)]
  simp only
  apply succeeds_bind
  apply ((uncopy_succeeds h hn hL hroom hfroom).ensures (uncopy_ensures h)).mono
  rintro - f₁ ⟨⟨hL₁, hn₁⟩, m₁, hshuf, hnone⟩
  have hs₁ : s < f₁.sp := hshuf.sp ▸ hs
  have ht₁ : t < f₁.sp := Nat.lt_trans ht hs₁
  refine succeeds_bind (succeeds_update (succeeds_look ?_))
  have htr : (f₁.release t).bumpGeneration.Tracks (some t) m₁ env :=
    (hshuf.tracks.release ht₁ hnone).bumpGeneration
  have hL₂ : (f₁.release t).bumpGeneration.regs.Lends L := hL₁.release hshuf.tracks.sound ht₁
  have hn₂ := (hn₁.release t).bumpGeneration
  have hsp : (f₁.release t).bumpGeneration.sp = f₁.sp := rfl
  generalize (f₁.release t).bumpGeneration = f₂ at htr hL₂ hn₂ hsp
  have hl : f₂.Live (some t) s := ⟨hsp ▸ hs₁, by simp; lia⟩
  have hsize : t < f₂.entries.size := Nat.lt_of_lt_of_le (hsp ▸ ht₁) htr.sound.sp_le
  split
  · next hc =>
    exact succeeds_update ⟨hL₂, hn₂.revive hsize
      (neat_constant (hn₂.constant (htr.backing hl).1 hc))⟩
  · next hv =>
    obtain ⟨hlb, -, hown⟩ := htr.own_backing hl hv
    split
    · exact succeeds_update ⟨hL₂, hn₂.revive hsize (neat_copy _ false)⟩
    · next hle =>
      -- the slot is dead, so it backs no other
      have hne : f₂.backing s ≠ t := fun he => hlb.2 (by rw [he])
      exact transfer_succeeds htr hn₂ hL₂ (by lia) (by lia) hlb hown
        (Nat.lt_of_le_of_ne (Nat.le_of_not_lt hle) (Ne.symm hne))

/-- A variable can be assigned. -/
theorem storeVar_succeeds {v : Bytecode.Var} (hv : f.varSlot v + 1 < f.sp) (popped : Bool) :
    Succeeds (storeVar v popped) f fun _ f' => f'.regs.Lends L ∧ f'.Neat none := by
  have hs : f.peek 1 < f.sp := Nat.sub_lt (Nat.lt_of_le_of_lt (Nat.zero_le _) hv) Nat.one_pos
  unfold storeVar
  apply succeeds_look
  apply succeeds_bind
  apply ((store_succeeds h hn hL hroom hfroom hs (Nat.lt_sub_of_add_lt hv)).ensures
    (store_ensures h hs)).mono
  rintro - f₁ ⟨⟨hL₁, hn₁⟩, m₁, ht₁, -, he⟩
  split
  · exact succeeds_update ⟨hL₁.pop ht₁.sound (by rw [he.sp]; lia), hn₁.pop⟩
  · exact succeeds_pure ⟨hL₁, hn₁⟩

/-- The topmost value can be moved down. -/
theorem shimmy_succeeds {n : Nat} (hpos : 0 < n) (hs : n < f.sp) :
    Succeeds (shimmy n) f fun _ f' => f'.regs.Lends L ∧ f'.Neat none := by
  have hs' : f.peek 1 < f.sp := Nat.sub_lt (Nat.lt_trans hpos hs) Nat.one_pos
  have ht : f.peek (n + 1) < f.peek 1 := by
    simp only [peek]
    lia
  unfold shimmy
  apply succeeds_look
  apply succeeds_bind
  apply ((store_succeeds h hn hL hroom hfroom hs' ht).ensures (store_ensures h hs')).mono
  rintro - f₁ ⟨⟨hL₁, hn₁⟩, m₁, ht₁, -, he⟩
  exact succeeds_update ⟨hL₁.popN ht₁ (by rw [he.sp]; lia), hn₁.popN n⟩

/-- The two topmost values can be exchanged. -/
theorem swap_succeeds (hs : 1 < f.sp) (hslots : f.sp < m.slots.size) :
    Succeeds swap f fun _ f' => f'.regs.Lends L ∧ f'.Neat none := by
  have hp₂ : f.peek 2 < f.sp := by
    simp only [peek]
    lia
  have hpush := h.pushCopy hp₂ hslots
  have hn₀ := hn.pushCopy h.sound.sp_le (h.backing ⟨hp₂, by simp⟩).1
  have hL₀ : (f.pushCopy (f.peek 2)).regs.Lends L := (regs_pushCopy f _).symm ▸ hL
  have hsp := sp_pushCopy f (f.peek 2)
  unfold swap
  refine succeeds_bind (succeeds_update (succeeds_look (succeeds_bind ?_)))
  generalize f.pushCopy (f.peek 2) = g at hpush hn₀ hL₀ hsp
  have hg₂ : g.peek 2 < g.sp := by
    simp only [peek]
    lia
  apply ((store_succeeds hpush hn₀ hL₀ hroom hfroom hg₂ (t := g.peek 3) (by
    simp only [peek]
    lia)).ensures (store_ensures hpush hg₂)).mono
  rintro - f₁ ⟨⟨hL₁, hn₁⟩, m₁, ht₁, -, he₁⟩
  have hg₁ : g.peek 1 < f₁.sp := by
    simp only [peek, he₁.sp]
    lia
  apply succeeds_bind
  apply ((store_succeeds ht₁ hn₁ hL₁ hroom hfroom hg₁ (t := g.peek 2) (by
    simp only [peek]
    lia)).ensures (store_ensures ht₁ hg₁)).mono
  rintro - f₂ ⟨⟨hL₂, hn₂⟩, m₂, ht₂, -, he₂⟩
  exact succeeds_update ⟨hL₂.pop ht₂.sound (by rw [he₂.sp, he₁.sp]; lia), hn₂.pop⟩

end

end FrameM

end FastPath
