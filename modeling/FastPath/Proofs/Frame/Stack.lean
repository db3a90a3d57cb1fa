import FastPath.Proofs.Frame.Alloc

/-!
# Pushing and popping

A push extends the assignment of values by one slot; a pop forgets one. What is pushed is a
constant, a copy of a slot, or a value whose parts are in temporaries, which the new slot
then takes over.
-/

namespace FastPath

open Frame RegisterFile Entry KnownType

variable {D : Cell.Discipline}

/-- The assignment with the value of one slot replaced. -/
def assign (env : Slot → Value) (s : Slot) (v : Value) : Slot → Value :=
  fun s' => if s' = s then v else env s'

@[simp] theorem assign_self (env : Slot → Value) (s : Slot) (v : Value) :
    assign env s v s = v := by
  simp [assign]

theorem assign_ne {env : Slot → Value} {s s' : Slot} {v : Value} (h : s' ≠ s) :
    assign env s v s' = env s' := by
  simp [assign, h]

namespace Frame

variable {f : Frame} {m : Machine} {env : Slot → Value}

/-! ### Pushing -/

variable {e : Entry} {g : RegisterFile} {v : Value} {s : Slot} {dead : Option Slot}

/-- Pushing an entry whose value the machine holds. The register file after the push is
given by `g`. -/
theorem Tracks.push (h : f.Tracks none m env) (hroom : f.sp < m.slots.size)
    (hcopy : ∀ b, e.role = .copyOf b → b < f.sp ∧ (f.entry b).role = .own)
    (hbare : e.role ≠ .own → e.data = .memory ∧ e.tag = none)
    (hconst : ∀ w, e.role = .constant w → e.type = .ofValue w)
    (hregs : f.regs.Assigns f.sp e g)
    (hholds : ({ f.push e with regs := g } : Frame).Holds m (assign env f.sp v) f.sp) :
    ({ f.push e with regs := g } : Frame).Tracks none m (assign env f.sp v) := by
  obtain ⟨hs, hr, hh⟩ := h
  have hent : ∀ s, ({ f.push e with regs := g } : Frame).entry s =
      if s = f.sp then e else f.entry s := fun s => entry_push f e s hs.sp_le
  have hlive : ∀ s, ({ f.push e with regs := g } : Frame).Live none s ↔
      s = f.sp ∨ f.Live none s := by
    intro s
    simp only [Live, sp_push]
    grind
  obtain ⟨h₁, h₂, h₃, h₄, h₅, h₆, h₇, h₈, h₉, h₁₀⟩ := hs
  obtain ⟨hfregType, htagType, hdata, htag, hfdata, hftag⟩ := hregs
  refine ⟨⟨?_, ?_, ?_, ?_, ?_, ?_, ?_, ?_, ?_, hftag⟩, ?_, ?_⟩
  · simp only [Frame.push]
    grind
  · intro s b hl hrole
    rw [hent] at hrole ⊢
    have := h₂ s b
    grind [Live]
  · grind
  · grind
  · grind
  · grind
  · grind [Live]
  · grind [Live]
  · grind [Live]
  · exact hroom
  · intro s hl
    by_cases hsp : s = f.sp
    · subst hsp
      exact hholds
    · have hl' := ((hlive s).1 hl).resolve_left hsp
      refine (hh s hl').congr (by rw [hent, if_neg hsp]) (assign_ne hsp) ?_ rfl
        (fun _ _ => rfl) fun _ _ => rfl
      intro b hb
      have hne : b ≠ f.sp := by
        have := (h₂ s b hl' hb).1
        have := hl'.1
        lia
      exact ⟨assign_ne hne, by rw [hent, if_neg hne]⟩

/-- The entry of the slot that a push adds. -/
theorem entry_push_self (h : f.sp ≤ f.entries.size) (e : Entry) : (f.push e).entry f.sp = e := by
  rw [entry_push f e f.sp h, if_pos rfl]

/-- Pushing a value that the new slot owns. -/
theorem Tracks.push_own (h : f.Tracks none m env) (hroom : f.sp < m.slots.size)
    (hrole : e.role = .own) (hregs : f.regs.Assigns f.sp e g) (howns : e.Owns m f.sp v) :
    ({ f.push e with regs := g } : Frame).Tracks none m (assign env f.sp v) := by
  refine h.push hroom ?_ (fun hne => absurd hrole hne) ?_ hregs ?_
  · intro b hb
    rw [hrole] at hb
    cases hb
  · intro w hw
    rw [hrole] at hw
    cases hw
  · have hself : ({ f.push e with regs := g } : Frame).entry f.sp = e :=
      entry_push_self h.sound.sp_le e
    rw [holds_own (by rw [hself, hrole]), hself, assign_self]
    exact howns

/-- Pushing an entry that has no registers. -/
theorem Tracks.push_bare (h : f.Tracks none m env) (hroom : f.sp < m.slots.size)
    (hdata : e.data = .memory) (htag : e.tag = none)
    (hcopy : ∀ b, e.role = .copyOf b → b < f.sp ∧ (f.entry b).role = .own)
    (hconst : ∀ w, e.role = .constant w → e.type = .ofValue w)
    (hholds : (f.push e).Holds m (assign env f.sp v) f.sp) :
    (f.push e).Tracks none m (assign env f.sp v) := by
  have hdataIff := h.sound.data_iff
  have htagIff := h.sound.tag_iff
  have hfdataIff := h.sound.fdata_iff
  refine h.push (g := f.regs) hroom hcopy (fun _ => ⟨hdata, htag⟩) hconst
    ⟨?_, ?_, ?_, ?_, ?_, h.sound.ftag⟩ hholds
  all_goals grind [Live]

/-- Pushing a constant. -/
theorem Tracks.pushConstant (h : f.Tracks none m env) (v : Value) (hroom : f.sp < m.slots.size) :
    (f.pushConstant v).Tracks none m (assign env f.sp v) := by
  have hself := entry_push_self h.sound.sp_le (.constant v)
  refine h.push_bare hroom rfl rfl (fun b hb => by cases hb) ?_ ?_
  · rintro w hw
    cases hw
    rfl
  · rw [holds_constant (by rw [hself]; rfl), hself]
    exact ⟨assign_self env f.sp v, by simp [Entry.constant, Entry.unsynced, Entry.isSynced]⟩

/-- A value of known type that memory has may be read from there. -/
theorem owns_inMemory {c : Cell} {u : Value} (hdata : e.data = .memory) (htag : e.tag = none)
    (hc : m.slots[s]? = some c) (hu : c.Reads u) (hfit : e.type.Fits u v)
    (htype : e.type.Describes v) : e.Owns m s v := by
  rw [owns_words (by simp [hdata])]
  refine ⟨c, u, ⟨?_, ?_, fun _ => by rw [hc]; rfl, fun _ => by rw [hc]; rfl⟩, hu, hfit⟩
  · simp only [tagWord?, htag, hc]
    cases ht : e.type.tag? with
    | none => rfl
    | some t =>
      have hne : e.type ≠ .double := by
        intro hd
        simp [hd, tag?] at ht
      rw [Cell.tag_of_reads hu, hfit.eq hne, htype.1 t ht]
  · simp only [payloadWord?, hdata, hc, Option.map_some]

/-- Pushing a value that memory has. -/
theorem Tracks.pushSynced (h : f.Tracks none m env) {types : TypeSet}
    (hst : m.Has types.knownType f.sp v) (htype : types.knownType.Describes v) :
    (f.pushSynced types).Tracks none m (assign env f.sp v) := by
  have hself := entry_push_self h.sound.sp_le (.inMemory types)
  obtain ⟨c, u, hc, hu, hfit⟩ := hst
  have hroom : f.sp < m.slots.size := (Array.getElem?_eq_some_iff.1 hc).1
  refine h.push_bare hroom rfl rfl (fun b hb => by cases hb) (fun w hw => by cases hw) ?_
  rw [holds_own (by rw [hself]; rfl), hself, assign_self]
  exact owns_inMemory rfl rfl hc hu hfit htype

/-! ### Backing slots -/

/-- A live slot has its value in a live slot that is no copy. -/
theorem Tracks.backing (h : f.Tracks dead m env) (hl : f.Live dead s) :
    f.Live dead (f.backing s) ∧ env s = env (f.backing s) ∧ f.backing s ≤ s ∧
      ((f.entry (f.backing s)).role = .own ∨
        f.backing s = s ∧ ∃ v, (f.entry s).role = .constant v ∧ env s = v) := by
  have hh := h.holds s hl
  cases hrole : (f.entry s).role with
  | own =>
    have hb := backing_of_own hrole
    simp [hb, hl, hrole]
  | copyOf b =>
    have hb := backing_of_copy hrole
    obtain ⟨hlt, hdead, hown⟩ := h.sound.copy s b hl hrole
    rw [hb]
    exact ⟨⟨Nat.lt_trans hlt hl.1, hdead⟩, ((holds_copy hrole).1 hh).1, Nat.le_of_lt hlt,
      .inl hown⟩
  | constant v =>
    have hb := backing_of_constant hrole
    rw [hb]
    exact ⟨hl, rfl, Nat.le_refl _, .inr ⟨rfl, v, rfl, ((holds_constant hrole).1 hh).1⟩⟩

theorem Tracks.constant? (h : f.Tracks dead m env) (hl : f.Live dead s)
    (hv : f.constant? s = some v) : env s = v ∧ (f.entry s).role = .constant v := by
  obtain ⟨-, -, -, hown | ⟨hb, w, hw, henv⟩⟩ := h.backing hl
  · simp [Frame.constant?, backingEntry, Entry.constant?, hown] at hv
  · simp [Frame.constant?, backingEntry, Entry.constant?, hb, hw] at hv
    exact ⟨henv.trans hv, hv ▸ hw⟩

/-- Pushing a copy. -/
theorem Tracks.pushCopy (h : f.Tracks none m env) (hs : s < f.sp) (hroom : f.sp < m.slots.size) :
    (f.pushCopy s).Tracks none m (assign env f.sp (env s)) := by
  have hl := live_of_lt hs
  unfold Frame.pushCopy
  cases hc : f.constant? s with
  | some v =>
    rw [(h.constant? hl hc).1]
    exact h.pushConstant v hroom
  | none =>
    obtain ⟨hlb, henv, -, hown⟩ := h.backing hl
    have hown : (f.entry (f.backing s)).role = .own := by
      rcases hown with hown | ⟨hb, v, hv, -⟩
      · exact hown
      · simp [Frame.constant?, backingEntry, Entry.constant?, hb, hv] at hc
    have hself := entry_push_self h.sound.sp_le (.copy (f.backing s))
    refine h.push_bare hroom rfl rfl ?_ (fun w hw => by cases hw) ?_
    · rintro b hb
      cases hb
      exact ⟨hlb.1, hown⟩
    · rw [holds_copy (b := f.backing s) (by rw [hself]; rfl), hself, assign_self,
        assign_ne (Nat.ne_of_lt hlb.1)]
      exact ⟨henv, by simp [Entry.copy, Entry.unsynced, Entry.isSynced]⟩

theorem sp_pushCopy (f : Frame) (s : Slot) : (f.pushCopy s).sp = f.sp + 1 := by
  unfold pushCopy
  split <;> rfl

theorem maxSp_pushCopy (f : Frame) (s : Slot) :
    (f.pushCopy s).maxSp = max f.maxSp (f.sp + 1) := by
  unfold pushCopy
  split <;> rfl

theorem regs_pushCopy (f : Frame) (s : Slot) : (f.pushCopy s).regs = f.regs := by
  unfold pushCopy
  split <;> rfl

/-! ### Popping -/

/-- Freeing the registers of an entry frees those and no others. -/
theorem binding_release (regs : RegisterFile) (e : Entry) (r : Reg) :
    (freeTag (freeData regs e.data) e.tag).binding r =
      if e.data = .reg r ∨ e.tag = some r then .free else regs.binding r := by
  have hfree : ∀ {r : Reg}, ¬ r.index < Reg.count → regs.binding r = .free := by
    intro r hr
    by_cases hb : regs.binding r = .free
    · exact hb
    · exact absurd (lt_of_binding_ne_free hb) hr
  cases hd : e.data <;> cases ht : e.tag <;> grind [freeTag, freeData]

theorem fbinding_release (regs : RegisterFile) (e : Entry) (r : FReg) :
    (freeTag (freeData regs e.data) e.tag).fbinding r =
      if e.data = .freg r then .free else regs.fbinding r := by
  have hfree : ∀ {r : FReg}, ¬ r.index < FReg.allocatable → regs.fbinding r = .free := by
    intro r hr
    by_cases hb : regs.fbinding r = .free
    · exact hb
    · exact absurd (lt_of_fbinding_ne_free hb) hr
  cases hd : e.data <;> cases ht : e.tag <;> grind [freeTag, freeData]

theorem entry_release (s s' : Slot) : (f.release s).entry s' =
    if s = s' ∧ s < f.entries.size then (f.entry s').withoutRegs else f.entry s' :=
  entry_update f s s' _

/-- A slot that no other copies may lose its value. -/
theorem Tracks.release (h : f.Tracks none m env) (hs : s < f.sp)
    (hcopies : ∀ s', s' < f.sp → (f.entry s').role ≠ .copyOf s) :
    (f.release s).Tracks (some s) m env := by
  have hent : ∀ s', s' ≠ s → (f.release s).entry s' = f.entry s' := by
    intro s' hne
    rw [entry_release, if_neg (fun hc => hne hc.1.symm)]
  have hlive : ∀ s', (f.release s).Live (some s) s' ↔ f.Live none s' ∧ s' ≠ s := by
    intro s'
    simp only [Live, Frame.release, sp_update]
    grind
  have hreg : ∀ r, (f.release s).regs.binding r =
      if (f.entry s).data = .reg r ∨ (f.entry s).tag = some r then .free
      else f.regs.binding r := binding_release f.regs (f.entry s)
  have hfreg : ∀ r, (f.release s).regs.fbinding r =
      if (f.entry s).data = .freg r then .free else f.regs.fbinding r :=
    fbinding_release f.regs (f.entry s)
  have hls := live_of_lt hs
  obtain ⟨⟨h₁, h₂, h₃, h₄, h₅, h₆, h₇, h₈, h₉, h₁₀⟩, hr, hh⟩ := h
  refine ⟨⟨?_, ?_, ?_, ?_, ?_, ?_, ?_, ?_, ?_, ?_⟩, hr, ?_⟩
  · exact (size_update f s _).symm ▸ h₁
  · intro s' b hl hrole
    obtain ⟨hl', hne⟩ := (hlive s').1 hl
    rw [hent s' hne] at hrole
    obtain ⟨hlt, -, hown⟩ := h₂ s' b hl' hrole
    have hbs : b ≠ s := by
      rintro rfl
      exact hcopies s' hl'.1 hrole
    exact ⟨hlt, by simpa using Ne.symm hbs, by rw [hent b hbs]; exact hown⟩
  · grind
  · grind
  · grind
  · grind
  · intro s' r
    have hd := h₇ s r
    have ht := h₈ s r
    have hd' := h₇ s' r
    grind
  · intro s' r
    have hd := h₇ s r
    have ht := h₈ s r
    have ht' := h₈ s' r
    grind
  · intro s' r
    have hd := h₉ s r
    have hd' := h₉ s' r
    grind
  · grind
  · intro s' hl
    obtain ⟨hl', hne⟩ := (hlive s').1 hl
    refine (hh s' hl').congr (hent s' hne) rfl ?_ rfl (fun _ _ => rfl) fun _ _ => rfl
    intro b hb
    have hbs : b ≠ s := by
      rintro rfl
      exact hcopies s' hl'.1 hb
    exact ⟨rfl, by rw [hent b hbs]⟩

/-- A frame whose top is dead is one slot shorter. -/
theorem Tracks.drop (h : f.Tracks (some s) m env) (hs : f.sp = s + 1) {n : Nat} :
    ({ f with sp := s, generation := n } : Frame).Tracks none m env := by
  have hlive : ∀ s', ({ f with sp := s, generation := n } : Frame).Live none s' ↔
      f.Live (some s) s' := by
    intro s'
    simp only [Live]
    grind
  have hdead : ∀ b, f.Live (some s) b → b ≠ s := by
    intro b hb
    simpa using Ne.symm hb.2
  obtain ⟨⟨h₁, h₂, h₃, h₄, h₅, h₆, h₇, h₈, h₉, h₁₀⟩, hr, hh⟩ := h
  refine ⟨⟨?_, ?_, ?_, ?_, ?_, ?_, ?_, ?_, ?_, h₁₀⟩, ?_, ?_⟩
  · exact Nat.le_trans (by simp [hs]) h₁
  · intro s' b hl hrole
    obtain ⟨hlt, -, hown⟩ := h₂ s' b ((hlive s').1 hl) hrole
    exact ⟨hlt, by simp, hown⟩
  · exact fun s' hl => h₃ s' ((hlive s').1 hl)
  · exact fun s' v hl => h₄ s' v ((hlive s').1 hl)
  · exact fun s' r hl => h₅ s' r ((hlive s').1 hl)
  · exact fun s' r hl => h₆ s' r ((hlive s').1 hl)
  · exact fun s' r => (h₇ s' r).trans (and_congr_left' (hlive s').symm)
  · exact fun s' r => (h₈ s' r).trans (and_congr_left' (hlive s').symm)
  · exact fun s' r => (h₉ s' r).trans (and_congr_left' (hlive s').symm)
  · exact Nat.le_trans (by simp [hs]) hr
  · exact fun s' hl => hh s' ((hlive s').1 hl)

/-- Popping keeps the slots below. -/
theorem Tracks.pop (h : f.Tracks none m env) (hs : 0 < f.sp) : f.pop.Tracks none m env := by
  have hsp : f.sp = f.peek 1 + 1 := by
    simp only [peek]
    omega
  refine (h.release (s := f.peek 1) (by lia) ?_).drop hsp
  intro s' hs' hrole
  have := (h.sound.copy s' _ ⟨hs', by simp⟩ hrole).1
  lia

theorem Tracks.popN {n : Nat} (h : f.Tracks none m env) (hs : n ≤ f.sp) :
    (popN n f).Tracks none m env := by
  induction n generalizing f with
  | zero => exact h
  | succ n ih =>
    refine ih (h.pop (by omega)) ?_
    change n ≤ f.sp - 1
    omega

end Frame

/-! ### Pushing temporaries -/

/-- The frame has one slot more, which has taken over the given registers. -/
structure Frame.Extends (f f' : Frame) (taken : Reg → Prop) (ftaken : FReg → Prop) : Prop where
  argCount : f'.argCount = f.argCount
  localCount : f'.localCount = f.localCount
  sp : f'.sp = f.sp + 1
  maxSp : f'.maxSp = max f.maxSp (f.sp + 1)
  pc : f'.pc = f.pc
  baseTypes : f'.baseTypes = f.baseTypes
  entry : ∀ s, s < f.sp → f'.entry s = f.entry s
  binding : ∀ r, ¬ taken r → f'.regs.binding r = f.regs.binding r
  taken : ∀ r, taken r → f'.regs.binding r ≠ .temp
  pinned : ∀ r, f'.regs.isPinned r = f.regs.isPinned r
  fbinding : ∀ r, ¬ ftaken r → f'.regs.fbinding r = f.regs.fbinding r
  ftaken : ∀ r, ftaken r → f'.regs.fbinding r ≠ .temp
  fpinned : ∀ r, f'.regs.isFPinned r = f.regs.isFPinned r

namespace FrameM

variable {f : Frame} {m : Machine} {env : Slot → Value} {v : Value}

/-- Pushing a payload whose tag the type implies. -/
theorem pushTyped_ensures (h : f.Tracks none m env) (hroom : f.sp < m.slots.size)
    {t : KnownType} {r : Reg} {p : UInt64} (hp : m.reg r = some p)
    (hv : ∀ tag, t.tag? = some tag → Cell.Reads ⟨tag.word, p⟩ v) :
    Ensures (pushTyped t r) f m fun s f' m' => s = f.sp ∧ m' = m ∧ f.regs.binding r = .temp ∧
      f.Extends f' (· = r) (fun _ => False) ∧
      f'.entry f.sp = { unsynced t (.ofKnown t) with data := .reg r } ∧
      f'.Tracks none m (assign env f.sp v) := by
  unfold pushTyped
  cases ht : t.tag? with
  | none => exact ensures_bind ensures_fail
  | some tag =>
    simp only [Option.isNone_some, Bool.false_eq_true, if_false]
    apply ensures_look
    split
    · next htemp =>
      have hlt := lt_of_binding htemp rfl
      apply ensures_bind
      refine ensures_look (ensures_bind (ensures_update (ensures_pure ?_)))
      apply ensures_regs
      apply ensures_pure
      have hle := h.sound.sp_le
      refine ⟨rfl, rfl, htemp, ?_, entry_push_self hle _, ?_⟩
      · constructor <;> first | rfl | grind
      obtain ⟨-, -, -, -, -, -, hdataIff, htagIff, hfdataIff, hftag⟩ := h.sound
      refine h.push_own hroom rfl ⟨nofun, nofun, ?_, ?_, ?_, hftag⟩ ?_
      · grind [Live]
      · grind [Live, unsynced]
      · grind [Live]
      · refine (owns_words (by simp)).2 ⟨⟨tag.word, p⟩, v, ?_, hv tag ht, ?_⟩
        · constructor <;> simp [tagWord?, payloadWord?, unsynced, ht, hp]
        · refine Fits.refl fun hd => ?_
          simp only [unsynced] at hd
          simp [hd, tag?] at ht
    · exact ensures_bind ensures_fail

/-- Pushing a number. -/
theorem pushDouble_ensures (h : f.Tracks none m env) (hroom : f.sp < m.slots.size) {r : FReg}
    {d : Double} (hd : m.freg r = some d) (hv : (Value.double d).same v) :
    Ensures (pushDouble r) f m fun s f' m' => s = f.sp ∧ m' = m ∧ f.regs.fbinding r = .temp ∧
      f.Extends f' (fun _ => False) (· = r) ∧
      f'.entry f.sp = { unsynced .double (.ofKnown .double) with data := .freg r } ∧
      f'.Tracks none m (assign env f.sp v) := by
  unfold pushDouble
  apply ensures_look
  split
  · next htemp =>
    have hlt := lt_of_fbinding htemp rfl
    apply ensures_bind
    refine ensures_look (ensures_bind (ensures_update (ensures_pure ?_)))
    apply ensures_regs
    apply ensures_pure
    have hle := h.sound.sp_le
    refine ⟨rfl, rfl, htemp, ?_, entry_push_self hle _, ?_⟩
    · constructor <;> first | rfl | grind
    obtain ⟨-, -, -, -, -, -, hdataIff, htagIff, hfdataIff, hftag⟩ := h.sound
    refine h.push_own hroom rfl ⟨fun _ _ => rfl, nofun, ?_, ?_, ?_, ?_⟩ ?_
    · grind [Live]
    · grind [Live, unsynced]
    · grind [Live]
    · grind
    · exact (owns_freg rfl).2 ⟨d, hd, hv, fun hs => by cases hs⟩
  · exact ensures_bind ensures_fail

/-- Pushing a value with its tag; if the type implies the tag, its register is given
back. -/
theorem pushRegs_ensures (h : f.Tracks none m env) (hroom : f.sp < m.slots.size)
    {rt rp : Reg} {c : Cell} {types : TypeSet} (hne : rt ≠ rp) (ht : m.reg rt = some c.tag)
    (hp : m.reg rp = some c.payload) (hv : c.Reads v)
    (htype : ∀ tag, types.knownType.tag? = some tag → v.tag = tag) :
    Ensures (pushRegs rt rp types) f m fun s f' m' => s = f.sp ∧ m' = m ∧
      f.regs.binding rt = .temp ∧ f.regs.binding rp = .temp ∧
      f.Extends f' (fun r => r = rt ∨ r = rp) (fun _ => False) ∧
      f'.Tracks none m (assign env f.sp v) := by
  unfold pushRegs
  split
  case isTrue hsome =>
    apply ensures_bind
    apply (free_ensures h).mono
    rintro - f₁ m₁ ⟨htemp, rfl, rfl, h₁⟩
    have hlt := lt_of_binding htemp rfl
    apply ensures_bind
    have hv₁ : ∀ tag, types.knownType.tag? = some tag →
        Cell.Reads ⟨tag.word, c.payload⟩ v := by
      intro tag htag
      rw [← htype tag htag, ← Cell.tag_of_reads hv]
      exact hv
    apply (pushTyped_ensures h₁ hroom hp hv₁).mono
    rintro s f₂ m₂ ⟨rfl, rfl, htemp₂, hext, hself, h₂⟩
    apply ensures_bind
    apply ensures_update
    apply ensures_pure
    refine ⟨rfl, rfl, htemp, ?_, ?_, h₂.of_notes _ fun e => ⟨types, e.init, rfl⟩⟩
    · grind
    · obtain ⟨e₁, e₂, e₃, e₄, e₅, e₆, e₇, e₈, e₉, e₁₀, e₁₁, e₁₂, e₁₃⟩ := hext
      constructor <;> first | assumption | grind
  case isFalse =>
    apply ensures_look
    by_cases htemp : f.regs.binding rt = .temp
    · by_cases htemp' : f.regs.binding rp = .temp
      · simp only [htemp, htemp', if_true]
        have hlt := lt_of_binding htemp rfl
        have hlt' := lt_of_binding htemp' rfl
        apply ensures_bind
        refine ensures_look (ensures_bind (ensures_update (ensures_pure ?_)))
        refine ensures_regs (ensures_bind (ensures_updateRegs
          (ensures_pure ?_)))
        have hle := h.sound.sp_le
        refine ⟨rfl, rfl, trivial, trivial, ?_, ?_⟩
        · constructor <;> first | rfl | grind
        obtain ⟨-, -, -, -, -, -, hdataIff, htagIff, hfdataIff, hftag⟩ := h.sound
        refine h.push_own hroom rfl ⟨nofun, fun _ _ => rfl, ?_, ?_, ?_, hftag⟩ ?_
        · grind [Live]
        · grind [Live, unsynced]
        · grind [Live]
        · refine (owns_words (by simp)).2 ⟨c, v, ?_, hv,
            Fits.refl (by simp [unsynced])⟩
          constructor <;>
            simp [tagWord?, payloadWord?, unsynced, tag?, hp, ht]
      · simp only [htemp, htemp', if_true, if_false]
        exact ensures_bind ensures_fail
    · simp only [htemp, if_false]
      exact ensures_bind ensures_fail

end FrameM

end FastPath
