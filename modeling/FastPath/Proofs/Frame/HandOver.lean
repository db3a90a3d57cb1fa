import FastPath.Proofs.Frame.Copies

/-!
# Registers that change hands

Assigning a slot changes the value of one slot, but the tracker does not move it in memory:
the slot takes over the registers of the source, and the source, with everything that copies
it, becomes a copy of the slot.
-/

namespace FastPath

open RegisterFile

variable {D : Cell.Discipline}

namespace Entry

variable {e : Entry} {m : Machine} {s : Slot} {v : Value}

/-- Every part of the value is in a register. -/
def InRegs (e : Entry) : Prop :=
  (∃ r, e.data = .freg r) ∨ ((∃ r, e.data = .reg r) ∧ (e.type.tag?.isSome ∨ e.tag.isSome))

/-- The entry of a value that memory does not have. -/
def unsync (e : Entry) : Entry := { e with dataSynced := false, tagSynced := false }

/-- A value that is in registers can belong to any slot. -/
theorem Owns.handOver (h : e.Owns m s v) (hregs : e.InRegs) (t : Slot) :
    e.unsync.Owns m t v := by
  rcases hregs with ⟨r, hr⟩ | ⟨⟨r, hr⟩, htag⟩
  · obtain ⟨d, hd, hv, -⟩ := (owns_freg hr).1 h
    exact (owns_freg (e := e.unsync) hr).2 ⟨d, hd, hv, fun hs => by cases hs⟩
  · obtain ⟨c, u, ⟨ht, hp, -, -⟩, hu⟩ := (owns_words (by simp [hr])).1 h
    refine (owns_words (e := e.unsync) (by simp [unsync, hr])).2 ⟨c, u, ⟨?_, ?_, ?_, ?_⟩, hu⟩
    · unfold tagWord? at ht ⊢
      simp only [unsync]
      cases htype : e.type.tag? with
      | some t => simpa only [htype] using ht
      | none =>
        cases hreg : e.tag with
        | some r => simpa only [htype, hreg] using ht
        | none => simp [htype, hreg] at htag
    · unfold payloadWord? at hp ⊢
      simpa only [unsync, hr] using hp
    · exact fun hs => by cases hs
    · exact fun hs => by cases hs

end Entry

namespace Frame

variable {f : Frame} {m : Machine} {env : Slot → Value} {s t : Slot}

/-- Memory has a value that both flags vouch for. -/
theorem Tracks.stores {dead : Option Slot} (h : f.Tracks dead m env) (hl : f.Live dead s)
    (hrole : (f.entry s).role = .own) (hsync : (f.entry s).isSynced) :
    m.Has (f.entry s).type s (env s) := by
  simp only [Entry.isSynced, Bool.and_eq_true] at hsync
  have ho := (holds_own hrole).1 (h.holds s hl)
  by_cases hfreg : ∃ r, (f.entry s).data = .freg r
  · obtain ⟨r, hr⟩ := hfreg
    obtain ⟨d, -, -, hst⟩ := (Entry.owns_freg hr).1 ho
    rw [h.sound.freg_type s r hl hr]
    exact hst hsync.1
  · obtain ⟨c, u, hw, hu⟩ := (Entry.owns_words fun r hr => hfreg ⟨r, hr⟩).1 ho
    exact ⟨c, u, hw.getElem? hsync.2 hsync.1, hu⟩

/-- The frame in which `t` has taken over the value of `s`, registers and copies included. -/
def handOver (f : Frame) (s t : Slot) (g : RegisterFile) : Frame :=
  (({ f with regs := g }.setEntry t (f.entry s).unsync).setEntry s
    { Entry.copy t with
      dataSynced := (f.entry s).isSynced
      tagSynced := (f.entry s).isSynced }).redirect (f.copiesOf s) t

/-- The entries after registers have changed hands. -/
theorem entry_handOver (g : RegisterFile) (hle : f.sp ≤ f.entries.size) (hs : s < f.sp)
    (ht : t < s) (s' : Slot) : (f.handOver s t g).entry s' =
      if s' ∈ f.copiesOf s then { f.entry s' with role := .copyOf t }
      else if s' = s then { Entry.copy t with
        dataSynced := (f.entry s).isSynced
        tagSynced := (f.entry s).isSynced }
      else if s' = t then (f.entry s).unsync else f.entry s' := by
  have hnot : s ∉ f.copiesOf s := fun hmem => Nat.lt_irrefl s (mem_copiesOf.1 hmem).2.1
  have hnot' : t ∉ f.copiesOf s := fun hmem => Nat.lt_asymm ht (mem_copiesOf.1 hmem).2.1
  rw [handOver, entry_redirect (fun c hc => ?_)]
  · by_cases hmem : s' ∈ f.copiesOf s
    · have hne : s ≠ s' := fun h => hnot (h ▸ hmem)
      have hne' : t ≠ s' := fun h => hnot' (h ▸ hmem)
      simp only [hmem, if_true, entry_setEntry, hne, hne', false_and, if_false]
      rfl
    · have hs' : s < f.entries.size := Nat.lt_of_lt_of_le hs hle
      have ht' : t < f.entries.size := Nat.lt_trans ht hs'
      simp only [hmem, if_false, entry_setEntry, size_setEntry, hs', ht', and_true]
      by_cases h₁ : s = s'
      · simp [h₁]
      · by_cases h₂ : t = s'
        · simp [h₁, Ne.symm h₁, h₂]
        · simp only [h₁, Ne.symm h₁, h₂, Ne.symm h₂, if_false]
          rfl
  · rw [size_setEntry, size_setEntry]
    exact Nat.lt_of_lt_of_le (mem_copiesOf.1 hc).1 hle

section HandOver

variable {g : RegisterFile}

/-- All but entries and registers stays as it is. -/
theorem handOver_fields (f : Frame) (s t : Slot) (g : RegisterFile) :
    (f.handOver s t g).argCount = f.argCount ∧ (f.handOver s t g).localCount = f.localCount ∧
    (f.handOver s t g).sp = f.sp ∧ (f.handOver s t g).maxSp = f.maxSp ∧
    (f.handOver s t g).pc = f.pc ∧ (f.handOver s t g).baseTypes = f.baseTypes ∧
    (f.handOver s t g).regs = g ∧ (f.handOver s t g).entries.size = f.entries.size := by
  obtain ⟨h₁, h₂, h₃, h₄, h₅, h₆, h₇, h₈⟩ := redirect_fields (f.copiesOf s) t
    (({ f with regs := g }.setEntry t (f.entry s).unsync).setEntry s
      { Entry.copy t with
        dataSynced := (f.entry s).isSynced
        tagSynced := (f.entry s).isSynced })
  rw [size_setEntry, size_setEntry] at h₈
  exact ⟨h₁, h₂, h₃, h₄, h₅, h₆, h₇, h₈⟩

theorem live_handOver (ht : t < s) (hl : f.Live (some t) s) (s' : Slot) :
    (f.handOver s t g).Live none s' ↔ f.Live (some t) s' ∨ s' = t := by
  have := hl.1
  have := (handOver_fields f s t g).2.2.1
  simp only [Live]
  grind

/-- What a slot is after handing over: the new owner, the old one, a copy of the value, or
none of these. -/
inductive HandOverCase (f : Frame) (s t : Slot) (g : RegisterFile) (s' : Slot) : Prop
  | target (he : s' = t) (hent : (f.handOver s t g).entry s' = (f.entry s).unsync)
  | source (he : s' = s) (hent : (f.handOver s t g).entry s' = { Entry.copy t with
      dataSynced := (f.entry s).isSynced
      tagSynced := (f.entry s).isSynced })
  | copy (hl : f.Live (some t) s') (hrole : (f.entry s').role = .copyOf s) (hs : s < s')
      (ht : s' ≠ t) (hent : (f.handOver s t g).entry s' = { f.entry s' with role := .copyOf t })
  | other (hl : f.Live (some t) s') (hrole : (f.entry s').role ≠ .copyOf s) (hs : s' ≠ s)
      (ht : s' ≠ t) (hent : (f.handOver s t g).entry s' = f.entry s')

/-- A live slot copies, is the target, or is left alone. -/
theorem handOverCase (h : f.Sound (some t)) (hl : f.Live (some t) s) (ht : t < s) {s' : Slot}
    (hl' : (f.handOver s t g).Live none s') : f.HandOverCase s t g s' := by
  have hent := entry_handOver g h.sp_le hl.1 ht s'
  by_cases h₁ : s' = t
  · have hmem : s' ∉ f.copiesOf s := fun hmem => Nat.lt_asymm (h₁ ▸ ht) (mem_copiesOf.1 hmem).2.1
    have hne : s' ≠ s := h₁ ▸ Nat.ne_of_lt ht
    rw [if_neg hmem, if_neg hne, if_pos h₁] at hent
    exact .target h₁ hent
  · have hl'' := ((live_handOver ht hl s').1 hl').resolve_right h₁
    by_cases h₂ : s' = s
    · subst h₂
      rw [if_neg (fun hmem => Nat.lt_irrefl _ (mem_copiesOf.1 hmem).2.1), if_pos rfl] at hent
      exact .source rfl hent
    · by_cases h₃ : (f.entry s').role = .copyOf s
      · have hlt := (h.copy s' s hl'' h₃).1
        rw [if_pos (mem_copiesOf.2 ⟨hl''.1, hlt, h₃⟩)] at hent
        exact .copy hl'' h₃ hlt h₁ hent
      · rw [if_neg (fun hmem => h₃ (mem_copiesOf.1 hmem).2.2), if_neg h₂, if_neg h₁] at hent
        exact .other hl'' h₃ h₂ h₁ hent

/-- A property of where a part of a value is, after handing over. -/
theorem handOver_iff (h : f.Sound (some t)) (hl : f.Live (some t) s) (ht : t < s)
    {q : Entry → Prop} (hsource : ∀ synced, ¬q { Entry.copy t with
      dataSynced := synced
      tagSynced := synced }) (htarget : ∀ e : Entry, q e.unsync ↔ q e)
    (hcopy : ∀ (e : Entry) role, q { e with role } ↔ q e) (s' : Slot) :
    ((f.handOver s t g).Live none s' ∧ q ((f.handOver s t g).entry s')) ↔
      if s' = t then q (f.entry s) else s' ≠ s ∧ f.Live (some t) s' ∧ q (f.entry s') := by
  have hlive := live_handOver (g := g) ht hl s'
  by_cases hl' : (f.handOver s t g).Live none s'
  · have hor := hlive.1 hl'
    simp only [hl', true_and]
    cases handOverCase h hl ht hl' with
    | target he hent => rw [hent, if_pos he, htarget]
    | source he hent =>
      rw [hent, if_neg (he ▸ Ne.symm (Nat.ne_of_lt ht))]
      exact ⟨fun hq => absurd hq (hsource _), fun hq => absurd he hq.1⟩
    | copy hl'' _ hs hne hent =>
      rw [hent, if_neg hne, hcopy]
      exact ⟨fun hq => ⟨Ne.symm (Nat.ne_of_lt hs), hl'', hq⟩, fun hq => hq.2.2⟩
    | other hl'' _ hs hne hent =>
      rw [hent, if_neg hne]
      exact ⟨fun hq => ⟨hs, hl'', hq⟩, fun hq => hq.2.2⟩
  · rw [hlive, not_or] at hl'
    rw [if_neg hl'.2, hlive]
    exact ⟨fun hq => absurd hq.1 (not_or.2 hl'), fun hq => absurd hq.2.1 hl'.1⟩

/-- The register file once the registers of `s` are those of `t`. -/
structure Rebinds (f : Frame) (s t : Slot) (g : RegisterFile) : Prop where
  data : ∀ s' r, g.binding r = .data s' ↔
    if s' = t then (f.entry s).data = .reg r else s' ≠ s ∧ f.regs.binding r = .data s'
  tag : ∀ s' r, g.binding r = .tag s' ↔
    if s' = t then (f.entry s).tag = some r else s' ≠ s ∧ f.regs.binding r = .tag s'
  fdata : ∀ s' r, g.fbinding r = .data s' ↔
    if s' = t then (f.entry s).data = .freg r else s' ≠ s ∧ f.regs.fbinding r = .data s'
  ftag : ∀ s' r, g.fbinding r ≠ .tag s'

section

variable (h : f.Sound (some t)) (hl : f.Live (some t) s)
include h hl

theorem rebinds_double {r : FReg}
    (hdata : (f.entry s).data = .freg r) (htag : (f.entry s).tag = none) :
    f.Rebinds s t (f.regs.fbind r (.data t)) := by
  have hdead : ¬f.Live (some t) t := fun hd => hd.2 rfl
  have hr := (h.fdata_iff s r).2 ⟨hl, hdata⟩
  have hlt := lt_of_fbinding hr rfl
  refine ⟨fun s' r' => ?_, fun s' r' => ?_, fun s' r' => ?_, fun s' r' => ?_⟩
  · grind [h.data_iff s' r']
  · grind [h.tag_iff s' r']
  · grind [h.fdata_iff s' r']
  · grind [h.ftag s' r']

theorem rebinds_payload {r : Reg}
    (hdata : (f.entry s).data = .reg r) (htag : (f.entry s).tag = none) :
    f.Rebinds s t (f.regs.bind r (.data t)) := by
  have hdead : ¬f.Live (some t) t := fun hd => hd.2 rfl
  have hr := (h.data_iff s r).2 ⟨hl, hdata⟩
  have hlt := lt_of_binding hr rfl
  refine ⟨fun s' r' => ?_, fun s' r' => ?_, fun s' r' => ?_, fun s' r' => ?_⟩
  · grind [h.data_iff s' r']
  · grind [h.tag_iff s' r']
  · grind [h.fdata_iff s' r']
  · grind [h.ftag s' r']

/-- Both registers of a value change hands. -/
theorem rebinds_words {r q : Reg}
    (hdata : (f.entry s).data = .reg r) (htag : (f.entry s).tag = some q) :
    f.Rebinds s t ((f.regs.bind q (.tag t)).bind r (.data t)) := by
  have hdead : ¬f.Live (some t) t := fun hd => hd.2 rfl
  have hr := (h.data_iff s r).2 ⟨hl, hdata⟩
  have hq := (h.tag_iff s q).2 ⟨hl, htag⟩
  have hlt := lt_of_binding hr rfl
  have hlt' := lt_of_binding hq rfl
  refine ⟨fun s' r' => ?_, fun s' r' => ?_, fun s' r' => ?_, fun s' r' => ?_⟩
  · grind [h.data_iff s' r']
  · grind [h.tag_iff s' r']
  · grind [h.fdata_iff s' r']
  · grind [h.ftag s' r']

end

/-- The frame is sound after registers have changed hands. -/
theorem Sound.handOver (h : f.Sound (some t)) (hl : f.Live (some t) s) (ht : t < s)
    (hown : (f.entry s).role = .own) (hg : f.Rebinds s t g) :
    (f.handOver s t g).Sound none := by
  obtain ⟨-, -, hsp, -, -, -, hr, hsize⟩ := handOver_fields f s t g
  have hcases := fun s' => @handOverCase f s t g h hl ht s'
  have hlive := live_handOver (g := g) ht hl
  have hself : ((f.handOver s t g).entry t).role = .own := by
    cases hcases t ((hlive t).2 (.inr rfl)) with
    | target _ hent => rw [hent]; exact hown
    | source he => exact absurd he (Nat.ne_of_lt ht)
    | copy _ _ _ hne | other _ _ _ hne => exact absurd rfl hne
  refine ⟨?_, ?_, ?_, ?_, ?_, ?_, ?_, ?_, ?_, ?_⟩
  · rw [hsp, hsize]
    exact h.sp_le
  · intro s' b hl' hrole
    cases hcases s' hl' with
    | target _ hent =>
      rw [hent] at hrole
      exact absurd (hown.symm.trans hrole) (by simp)
    | source he hent =>
      rw [hent] at hrole
      cases hrole
      exact ⟨he ▸ ht, by simp, hself⟩
    | copy _ _ hs _ hent =>
      rw [hent] at hrole
      cases hrole
      exact ⟨Nat.lt_trans ht hs, by simp, hself⟩
    | other hl'' hr' _ _ hent =>
      rw [hent] at hrole
      obtain ⟨hlt, hd, ho⟩ := h.copy s' b hl'' hrole
      have hbl : f.Live (some t) b := ⟨Nat.lt_trans hlt hl''.1, hd⟩
      refine ⟨hlt, by simp, ?_⟩
      cases hcases b ((hlive b).2 (.inl hbl)) with
      | target _ he => rw [he]; exact hown
      | source he => exact absurd (he ▸ hrole) hr'
      | copy _ hb => exact absurd (ho.symm.trans hb) (by simp)
      | other _ _ _ _ he => rw [he]; exact ho
  · intro s' hl' hrole
    cases hcases s' hl' with
    | target _ hent => rw [hent] at hrole; exact absurd hown hrole
    | source _ hent => rw [hent]; exact ⟨rfl, rfl⟩
    | copy hl'' hr' _ _ hent => rw [hent]; exact h.bare s' hl'' (by simp [hr'])
    | other hl'' _ _ _ hent => rw [hent] at hrole ⊢; exact h.bare s' hl'' hrole
  · intro s' v hl' hrole
    cases hcases s' hl' with
    | target _ hent => rw [hent] at hrole; exact absurd (hown.symm.trans hrole) (by simp)
    | source _ hent | copy _ _ _ _ hent => rw [hent] at hrole; cases hrole
    | other hl'' _ _ _ hent => rw [hent] at hrole ⊢; exact h.constant s' v hl'' hrole
  · intro s' r hl' hfr
    cases hcases s' hl' with
    | target _ hent => rw [hent] at hfr ⊢; exact h.freg_type s r hl hfr
    | source _ hent => rw [hent] at hfr; cases hfr
    | copy hl'' _ _ _ hent | other hl'' _ _ _ hent =>
      rw [hent] at hfr ⊢
      exact h.freg_type s' r hl'' hfr
  · intro s' r hl' htr
    cases hcases s' hl' with
    | target _ hent => rw [hent] at htr ⊢; exact h.tag_type s r hl htr
    | source _ hent => rw [hent] at htr; cases htr
    | copy hl'' _ _ _ hent | other hl'' _ _ _ hent =>
      rw [hent] at htr ⊢
      exact h.tag_type s' r hl'' htr
  · intro s' r
    rw [hr, hg.data, handOver_iff (q := (·.data = .reg r)) h hl ht
      (fun _ => nofun) (fun _ => Iff.rfl)
      (fun _ _ => Iff.rfl), h.data_iff]
  · intro s' r
    rw [hr, hg.tag, handOver_iff (q := (·.tag = some r)) h hl ht (fun _ => nofun) (fun _ => Iff.rfl)
      (fun _ _ => Iff.rfl), h.tag_iff]
  · intro s' r
    rw [hr, hg.fdata, handOver_iff (q := (·.data = .freg r)) h hl ht
      (fun _ => nofun) (fun _ => Iff.rfl)
      (fun _ _ => Iff.rfl), h.fdata_iff]
  · rw [hr]
    exact hg.ftag

/-- Handing over a value assigns it to the dead slot and leaves the other values alone. -/
theorem Tracks.handOver (h : f.Tracks (some t) m env) (hl : f.Live (some t) s) (ht : t < s)
    (hown : (f.entry s).role = .own) (hregs : (f.entry s).InRegs) (hg : f.Rebinds s t g) :
    (f.handOver s t g).Tracks none m (assign env t (env s)) := by
  have hcases := fun s' => @handOverCase f s t g h.sound hl ht s'
  have hlive := live_handOver (g := g) ht hl
  have hst : s ≠ t := Ne.symm (Nat.ne_of_lt ht)
  have hat : assign env t (env s) t = env s := assign_self ..
  have hself : (f.handOver s t g).entry t = (f.entry s).unsync := by
    cases hcases t ((hlive t).2 (.inr rfl)) with
    | target _ hent => exact hent
    | source he => exact absurd he (Nat.ne_of_lt ht)
    | copy _ _ _ hne | other _ _ _ hne => exact absurd rfl hne
  refine ⟨h.sound.handOver hl ht hown hg, ?_, fun s' hl' => ?_⟩
  · rw [(handOver_fields f s t g).2.2.1]
    exact h.room
  · cases hcases s' hl' with
    | target he hent =>
      subst he
      rw [holds_own (by rw [hent]; exact hown), hent, hat]
      exact ((holds_own hown).1 (h.holds s hl)).handOver hregs _
    | source he hent =>
      subst he
      rw [holds_copy (b := t) (by rw [hent]; rfl), hself, hent, hat, assign_ne hst]
      exact ⟨rfl, fun hsync => h.stores hl hown (by simpa [Entry.isSynced] using hsync)⟩
    | copy hl'' hr' _ hne hent =>
      rw [holds_copy (b := t) (by rw [hent]), hself, hent, hat, assign_ne hne]
      exact (holds_copy hr').1 (h.holds s' hl'')
    | other hl'' hr' _ hne hent =>
      refine (h.holds s' hl'').congr hent (assign_ne hne) ?_ rfl (fun _ _ => rfl)
        fun _ _ => rfl
      intro b hb
      obtain ⟨hlt, hd, ho⟩ := h.sound.copy s' b hl'' hb
      have hbt : b ≠ t := fun he => hd (he ▸ rfl)
      refine ⟨assign_ne hbt, ?_⟩
      cases hcases b ((hlive b).2 (.inl ⟨Nat.lt_trans hlt hl''.1, hd⟩)) with
      | target he => exact absurd he hbt
      | source he => exact absurd (he ▸ hb) hr'
      | copy _ hb => exact absurd (ho.symm.trans hb) (by simp)
      | other _ _ _ _ he => rw [he]

end HandOver

end Frame

end FastPath
