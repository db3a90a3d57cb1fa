import FastPath.Proofs.Frame.Store

/-!
# What a guard teaches

A guard compares the tag of a slot of unknown type; behind it the type is known, and the
register that held the tag is free.

## Main results

* `FrameM.tagOperand_eq`: the operand that a guard reads is the tag of the value.
* `FrameM.learnType_ensures`: recording the type that a guard has found.
-/

namespace FastPath

variable {D : Cell.Discipline}

namespace Frame

variable {f : Frame} {m : Machine} {env : Slot → Value} {s b : Slot} {t : KnownType}

theorem binding_freeTag (regs : RegisterFile) (tag : Option Reg) (r : Reg) :
    (freeTag regs tag).binding r = if tag = some r then .free else regs.binding r := by
  have h := binding_release regs { Entry.inMemory .unknown with tag } r
  simpa [freeData, Entry.inMemory] using h

theorem fbinding_freeTag (regs : RegisterFile) (tag : Option Reg) (r : FReg) :
    (freeTag regs tag).fbinding r = regs.fbinding r := by
  cases tag <;> simp [freeTag]

/-- An owned value of unknown type whose tag is found to be the one of `t`. -/
def learn (f : Frame) (b : Slot) (t : KnownType) : Frame :=
  ((f.mapRegs (freeTag · (f.entry b).tag)).update b fun e =>
    { e with tag := none, type := t, types := .ofKnown t }).bumpGeneration

theorem entry_learn (f : Frame) (b : Slot) (t : KnownType) (s : Slot) : (f.learn b t).entry s =
    if b = s ∧ b < f.entries.size then
      { f.entry s with tag := none, type := t, types := .ofKnown t }
    else f.entry s :=
  entry_update (f.mapRegs (freeTag · (f.entry b).tag)) b s _

/-- A type may be learnt of a value that is in no double register. -/
theorem Sound.learn (h : f.Sound none) (hl : f.Live none b) (hown : (f.entry b).role = .own)
    (hne : ∀ r, (f.entry b).data ≠ .freg r) : (f.learn b t).Sound none := by
  have hb : b < f.entries.size := Nat.lt_of_lt_of_le hl.1 h.sp_le
  have hent : ∀ s, (f.learn b t).entry s = if b = s then
      { f.entry s with tag := none, type := t, types := .ofKnown t } else f.entry s := by
    intro s
    simp only [entry_learn, hb, and_true]
  have hrole : ∀ s, ((f.learn b t).entry s).role = (f.entry s).role := by
    intro s
    rw [hent]
    split <;> rfl
  have hdata : ∀ s, ((f.learn b t).entry s).data = (f.entry s).data := by
    intro s
    rw [hent]
    split <;> rfl
  have hreg : ∀ r, (f.learn b t).regs.binding r =
      if (f.entry b).tag = some r then .free else f.regs.binding r := binding_freeTag f.regs _
  have hfreg : ∀ r, (f.learn b t).regs.fbinding r = f.regs.fbinding r := fbinding_freeTag f.regs _
  have hlive : ∀ s, (f.learn b t).Live none s ↔ f.Live none s := fun s => Iff.rfl
  obtain ⟨h₁, h₂, h₃, h₄, h₅, h₆, h₇, h₈, h₉, h₁₀⟩ := h
  refine ⟨?_, ?_, ?_, ?_, ?_, ?_, ?_, ?_, ?_, ?_⟩
  · exact (size_update (f.mapRegs (freeTag · (f.entry b).tag)) b _).symm ▸ h₁
  · simpa only [hrole, hlive] using h₂
  · intro s hs hne
    rw [hrole] at hne
    have := h₃ s hs hne
    grind
  · intro s v hs hc
    rw [hrole] at hc
    have hne : b ≠ s := by
      rintro rfl
      rw [hown] at hc
      cases hc
    rw [hent, if_neg hne]
    exact h₄ s v hs hc
  · intro s r hs hr
    rw [hdata] at hr
    have hbs : b ≠ s := by
      rintro rfl
      exact hne r hr
    rw [hent, if_neg hbs]
    exact h₅ s r hs hr
  · intro s r hs hr
    have := h₆ s r hs
    grind
  · intro s r
    have := h₇ s r
    have := h₈ b r
    grind
  · intro s r
    have := h₈ s r
    have := h₈ b r
    grind
  · intro s r
    rw [hfreg, hdata]
    exact h₉ s r
  · intro s r
    rw [hfreg]
    exact h₁₀ s r

/-- Learning the type of a value changes nothing about where it is. -/
theorem Tracks.learn (h : f.Tracks none m env) (hl : f.Live none b)
    (hown : (f.entry b).role = .own) (htype : (f.entry b).type = .unknown)
    (ht : t.tag? = some (env b).tag) : (f.learn b t).Tracks none m env := by
  have hb : b < f.entries.size := Nat.lt_of_lt_of_le hl.1 h.sound.sp_le
  have hne : t ≠ .double := by
    rintro rfl
    cases ht
  have hself : (f.learn b t).entry b =
      { f.entry b with tag := none, type := t, types := .ofKnown t } := by
    rw [entry_learn, if_pos ⟨rfl, hb⟩]
  have hother : ∀ s, b ≠ s → (f.learn b t).entry s = f.entry s := by
    intro s hs
    rw [entry_learn, if_neg (fun hc => hs hc.1)]
  have hfits : ∀ {u v : Value}, KnownType.unknown.Fits u v → t.Fits u v := by
    intro u v huv
    rw [huv.eq (by simp)]
    exact .refl fun hd => absurd hd hne
  have hnf : ∀ r, (f.entry b).data ≠ .freg r := by
    intro r hr
    rw [h.sound.freg_type b r hl hr] at htype
    cases htype
  refine ⟨h.sound.learn hl hown hnf, h.room, fun s hs => ?_⟩
  have hh := h.holds s hs
  by_cases hbs : b = s
  · subst hbs
    rw [holds_own (by rw [hself]; exact hown), hself]
    obtain ⟨c, u, hw, hu, hfit⟩ := (Entry.owns_words hnf).1 ((holds_own hown).1 hh)
    refine (Entry.owns_words (by simpa using hnf)).2
      ⟨c, u, ⟨?_, hw.payload, hw.tagSynced, hw.dataSynced⟩, hu, hfits (htype ▸ hfit)⟩
    rw [htype] at hfit
    simp only [Entry.tagWord?, ht, Cell.tag_of_reads hu, hfit.eq (by simp)]
  · cases hrole : (f.entry s).role with
    | copyOf b' =>
      obtain ⟨henv, hst⟩ := (holds_copy hrole).1 hh
      rw [holds_copy (b := b') (by rw [hother s hbs]; exact hrole), hother s hbs]
      refine ⟨henv, fun hsync => ?_⟩
      by_cases hb' : b = b'
      · subst hb'
        obtain ⟨c, u, hc, hu, hfit⟩ := hst hsync
        rw [hself]
        exact ⟨c, u, hc, hu, hfits (htype ▸ hfit)⟩
      · rw [hother b' hb']
        exact hst hsync
    | own | constant v =>
      exact hh.congr (hother s hbs) rfl (fun b' hb' => by simp [hrole] at hb') rfl
        (fun _ _ => rfl) fun _ _ => rfl

/-- Where the tag of a slot of unknown type is. -/
def tagPlace (f : Frame) (s : Slot) : Operand :=
  match (f.backingEntry s).tag with
  | some r => .reg r
  | none => .tag (f.backing s)

/-- The tag of a value is where the frame says. -/
theorem Tracks.operand_tagPlace (h : f.Tracks none m env) (hs : s < f.sp)
    (htype : f.knownType s = .unknown) : m.operand? (f.tagPlace s) = some (env s).tag.word := by
  have hl := live_of_lt hs
  replace htype : (f.entry (f.backing s)).type = .unknown := htype
  have hc : (f.entry (f.backing s)).constant? = none := h.constant?_of_unknown hl htype
  obtain ⟨hlb, henv, hown⟩ := h.own_backing hl hc
  have hnf : ∀ r, (f.entry (f.backing s)).data ≠ .freg r := by
    intro r hr
    have := h.sound.freg_type _ r hlb hr
    exact absurd (htype.symm.trans this) (by simp)
  obtain ⟨c, u, hw, hu, hfit⟩ := h.words hlb hown hnf
  have htag : c.tag = (env s).tag.word := by
    rw [Cell.tag_of_reads hu, hfit.eq (by rw [htype]; simp), henv]
  have hnone : (f.entry (f.backing s)).type.tag? = none := by
    rw [htype]
    rfl
  simp only [tagPlace, backingEntry]
  split
  · next r hr => exact htag ▸ hw.tag_reg hnone hr
  · next hr => exact htag ▸ hw.tag_memory hnone hr

end Frame

namespace FrameM

variable {f : Frame} {m : Machine} {env : Slot → Value} {s : Slot} {t : KnownType}

theorem tagOperand_eq : Ensures (tagOperand s) f m fun op f' m' => f' = f ∧ m' = m ∧
    f.knownType s = .unknown ∧ op = f.tagPlace s := by
  unfold tagOperand
  refine ensures_look ?_
  dsimp only
  split
  case isFalse => exact ensures_bind ensures_fail
  case isTrue htype =>
    split
    · next r hr => exact ensures_pure ⟨rfl, rfl, htype, by simp only [Frame.tagPlace, hr]⟩
    · next hr => exact ensures_pure ⟨rfl, rfl, htype, by simp only [Frame.tagPlace, hr]⟩

/-- Recording the type that a guard has found. -/
theorem learnType_ensures (h : f.Tracks none m env) (hs : s < f.sp)
    (htype : f.knownType s = .unknown) (ht : ∀ tag, t.tag? = some tag → (env s).tag = tag) :
    Ensures (learnType s t) f m fun _ f' m' => f' = f.learn (f.backing s) t ∧ m' = m ∧
      f'.Tracks none m env := by
  have hl := Frame.live_of_lt hs
  have hc : (f.entry (f.backing s)).constant? = none := h.constant?_of_unknown hl htype
  obtain ⟨hlb, henv, hown⟩ := h.own_backing hl hc
  unfold learnType
  cases htag : t.tag? with
  | none => exact ensures_bind ensures_fail
  | some tag =>
    simp only [Option.isNone_some, Bool.false_eq_true, if_false]
    refine ensures_look ?_
    have hne : ¬((f.backingEntry s).constant?.isSome ∨ (f.backingEntry s).type = t) := by
      rintro (hsome | rfl)
      · simp [Frame.backingEntry, hc] at hsome
      · rw [show (f.backingEntry s).type = .unknown from htype] at htag
        cases htag
    rw [if_neg hne]
    split
    · exact ensures_fail
    · refine ensures_update ⟨rfl, rfl, h.learn hlb hown htype ?_⟩
      rw [htag, ← henv, ht tag htag]

end FrameM

end FastPath
