import FastPath.Proofs.Frame.Load

/-!
# Copies that come to own their value

A copy that has to outlive the slot it copies is given registers of its own, or keeps what
its memory has; the other copies then follow it. Nothing that is known about any value
changes on the way.
-/

namespace FastPath

open Frame RegisterFile Entry KnownType

variable {D : Cell.Discipline}

namespace Frame

variable {f : Frame} {dead : Option Slot} {m : Machine} {env : Slot → Value} {s : Slot}

/-! ### Types of values -/

/-- The type of an entry is one of its value. -/
theorem Tracks.describes (h : f.Tracks dead m env) (hl : f.Live dead s)
    (hrole : (f.entry s).role = .own) : (f.entry s).type.Describes (env s) := by
  have ho := (holds_own hrole).1 (h.holds s hl)
  by_cases hfreg : ∃ r, (f.entry s).data = .freg r
  · obtain ⟨r, hr⟩ := hfreg
    obtain ⟨d, -, hv, -⟩ := (owns_freg hr).1 ho
    rw [h.sound.freg_type s r hl hr]
    refine ⟨fun t ht => (by cases ht), fun _ => ?_⟩
    rw [← Value.same_isNumber hv]
    rfl
  · obtain ⟨c, u, hw, hu, hfit⟩ := (owns_words fun r hr => hfreg ⟨r, hr⟩).1 ho
    refine ⟨fun t ht => ?_, fun hd => ?_⟩
    · have hne : (f.entry s).type ≠ .double := by
        intro hd
        simp [hd, tag?] at ht
      have hword := hw.tag_known ht
      rw [Cell.tag_of_reads hu, hfit.eq hne] at hword
      have := congrArg Tag.ofWord? hword
      rw [Tag.ofWord?_word, Tag.ofWord?_word] at this
      exact (Option.some.inj this).symm
    · rw [hd] at hfit
      exact hfit.isNumber

/-- The known type of a slot is one of its value. -/
theorem Tracks.describes_knownType (h : f.Tracks dead m env) (hl : f.Live dead s) :
    (f.knownType s).Describes (env s) := by
  cases hc : (f.entry (f.backing s)).constant? with
  | some v =>
    rw [(h.constant? hl (v := v) hc).1, knownType, backingEntry, h.type_of_constant hl hc]
    exact describes_ofValue v
  | none =>
    obtain ⟨hlb, henv, hown⟩ := h.own_backing hl hc
    rw [henv]
    exact h.describes hlb hown

/-! ### Replacing an entry -/

variable {f' f₁ : Frame} {b b' : Slot} {e : Entry} {g : RegisterFile} {cs : List Slot}
  {m' m₁ : Machine}

/-- One entry is replaced by another, with the same machine. Slots that copy the replaced
one have to find the same value there. -/
theorem Tracks.replace (h : f.Tracks dead m env) {dead' : Option Slot} {env' : Slot → Value}
    (s₀ : Slot) (hlive : ∀ s, f'.Live dead' s ↔ f.Live dead s ∨ s = s₀)
    (hdead : ∀ s, dead' = some s → dead = some s) (hsp : f'.sp = f.sp)
    (hsize : f'.entries.size = f.entries.size) (hother : ∀ s, s ≠ s₀ → f'.entry s = f.entry s)
    (henv : ∀ s, s ≠ s₀ → env' s = env s)
    (hcopies : ∀ s, f.Live dead s → (f.entry s).role = .copyOf s₀ →
      (f'.entry s₀).role = .own ∧ (f'.entry s₀).type = (f.entry s₀).type ∧ env' s₀ = env s₀)
    (hcopy : ∀ b, (f'.entry s₀).role = .copyOf b →
      b < s₀ ∧ f.Live dead b ∧ (f.entry b).role = .own) (hbare : (f'.entry s₀).role ≠ .own →
      (f'.entry s₀).data = .memory ∧ (f'.entry s₀).tag = none)
    (hconst : ∀ w, (f'.entry s₀).role = .constant w → (f'.entry s₀).type = .ofValue w)
    (hregs : f.regs.Assigns s₀ (f'.entry s₀) f'.regs) (hholds : f'.Holds m env' s₀) :
    f'.Tracks dead' m env' := by
  obtain ⟨hfregType, htagType, hdata, htag, hfdata, hftag⟩ := hregs
  obtain ⟨⟨h₁, h₂, h₃, h₄, h₅, h₆, h₇, h₈, h₉, h₁₀⟩, hr, hh⟩ := h
  refine ⟨⟨?_, ?_, ?_, ?_, ?_, ?_, ?_, ?_, ?_, hftag⟩, ?_, ?_⟩
  · rw [hsp, hsize]
    exact h₁
  · intro s b hl hrole
    by_cases hs : s = s₀
    · subst hs
      obtain ⟨hlt, hlb, hown⟩ := hcopy b hrole
      have hne : b ≠ s := by lia
      exact ⟨hlt, fun hd => hlb.2 (hdead b hd), by rw [hother b hne]; exact hown⟩
    · have hl' := ((hlive s).1 hl).resolve_right hs
      rw [hother s hs] at hrole
      obtain ⟨hlt, hd, hown⟩ := h₂ s b hl' hrole
      refine ⟨hlt, fun hd' => hd (hdead b hd'), ?_⟩
      by_cases hb : b = s₀
      · subst hb
        exact (hcopies s hl' hrole).1
      · rw [hother b hb]
        exact hown
  · grind
  · grind
  · grind
  · grind
  · intro s r
    have := h₇ s r
    grind
  · intro s r
    have := h₈ s r
    grind
  · intro s r
    have := h₉ s r
    grind
  · rw [hsp]
    exact hr
  · intro s hl
    by_cases hs : s = s₀
    · subst hs
      exact hholds
    · have hl' := ((hlive s).1 hl).resolve_right hs
      refine (hh s hl').congr (hother s hs) (henv s hs) ?_ rfl (fun _ _ => rfl) fun _ _ => rfl
      intro b hb
      by_cases hbs : b = s₀
      · subst hbs
        obtain ⟨-, htype, he⟩ := hcopies s hl' hb
        exact ⟨he, htype⟩
      · exact ⟨henv b hbs, by rw [hother b hbs]⟩

/-- A slot that was a copy comes to own its value. -/
theorem Tracks.adopt (h : f.Tracks dead m env) (hl : f.Live dead s)
    (hrole : (f.entry s).role = .copyOf b) {n : Nat} (hown : e.role = .own)
    (hregs : f.regs.Assigns s e g) (howns : e.Owns m s (env s)) :
    ({ f.setEntry s e with regs := g, generation := n } : Frame).Tracks dead m env := by
  have hs : s < f.entries.size := Nat.lt_of_lt_of_le hl.1 h.sound.sp_le
  have hself : ({ f.setEntry s e with regs := g, generation := n } : Frame).entry s = e :=
    (entry_setEntry f s s e).trans (if_pos ⟨rfl, hs⟩)
  have hlive : ∀ s', ({ f.setEntry s e with regs := g, generation := n } : Frame).Live dead s' ↔
      f.Live dead s' ∨ s' = s := by
    intro s'
    refine ⟨.inl, ?_⟩
    rintro (h | rfl)
    · exact h
    · exact hl
  refine h.replace s hlive (fun _ => id) rfl (size_setEntry f e s) ?_ (fun _ _ => rfl)
    ?_ ?_ ?_ ?_ ?_
    ?_
  · intro s' hne
    exact (entry_setEntry f s s' e).trans (if_neg fun hc => hne hc.1.symm)
  · intro s' hl' hrole'
    have := (h.sound.copy s' s hl' hrole').2.2
    rw [hrole] at this
    cases this
  · rw [hself, hown]
    exact fun b hb => by cases hb
  · rw [hself, hown]
    exact fun hne => absurd rfl hne
  · rw [hself, hown]
    exact fun w hw => by cases hw
  · rw [hself]
    exact hregs
  · rw [holds_own (by rw [hself, hown]), hself]
    exact howns

/-! ### Redirecting copies -/

theorem mem_copiesOf {s : Slot} :
    s ∈ f.copiesOf b ↔ s < f.sp ∧ b < s ∧ (f.entry s).role = .copyOf b := by
  have hrole : (f.entry s).copyOf? = some b ↔ (f.entry s).role = .copyOf b := by
    unfold copyOf?
    cases (f.entry s).role <;> simp
  simp [copiesOf, hrole]

/-- The copies of a slot are listed from the lowest up. -/
theorem lt_of_copiesOf {first : Slot} {rest : List Slot} (h : f.copiesOf b = first :: rest) :
    ∀ s ∈ rest, first < s := by
  have hsorted : (f.copiesOf b).Pairwise (· < ·) := List.Pairwise.filter _ List.pairwise_lt_range
  rw [h] at hsorted
  exact (List.pairwise_cons.1 hsorted).1

/-- Make the listed slots copies of one slot. -/
def redirect (f : Frame) (cs : List Slot) (b : Slot) : Frame :=
  cs.foldl (fun f s => f.update s fun e => { e with role := .copyOf b }) f

/-- Redirecting copies changes nothing but entries. -/
theorem redirect_fields (cs : List Slot) (b : Slot) (f : Frame) :
    (f.redirect cs b).argCount = f.argCount ∧ (f.redirect cs b).localCount = f.localCount ∧
      (f.redirect cs b).sp = f.sp ∧ (f.redirect cs b).maxSp = f.maxSp ∧
      (f.redirect cs b).pc = f.pc ∧ (f.redirect cs b).baseTypes = f.baseTypes ∧
      (f.redirect cs b).regs = f.regs ∧
      (f.redirect cs b).entries.size = f.entries.size := by
  induction cs generalizing f with
  | nil => simp [redirect]
  | cons c cs ih =>
    have := ih (f.update c fun e => { e with role := .copyOf b })
    simp only [size_update, sp_update, regs_update] at this
    exact this

/-- The redirected slots copy another slot. -/
theorem entry_redirect {f : Frame} (hcs : ∀ s ∈ cs, s < f.entries.size) (s : Slot) :
    (f.redirect cs b).entry s =
      if s ∈ cs then { f.entry s with role := .copyOf b } else f.entry s := by
  induction cs generalizing f with
  | nil => simp [redirect]
  | cons c cs ih =>
    have hc := hcs c (by simp)
    have hrec : (f.redirect (c :: cs) b) =
        (f.update c fun e => { e with role := .copyOf b }).redirect cs b := rfl
    have hcs' : ∀ s ∈ cs,
        s < (f.update c fun e => { e with role := .copyOf b }).entries.size := by
      intro s hs
      rw [size_update]
      exact hcs s (by simp [hs])
    rw [hrec, ih hcs', entry_update]
    by_cases hsc : c = s
    · subst hsc
      by_cases hmem : c ∈ cs <;> simp [hmem, hc]
    · have hsc' : s ≠ c := Ne.symm hsc
      by_cases hmem : s ∈ cs <;> simp [hmem, hsc, hsc']

/-- Copies may be redirected to another slot that owns the same value. -/
theorem Tracks.redirect (h : f.Tracks dead m env)
    (hcs : ∀ s ∈ cs, f.Live dead s ∧ (f.entry s).role = .copyOf b ∧ b' < s) (hlive : f.Live dead b')
    (hown : (f.entry b').role = .own) (hmem : b' ∉ cs)
    (htype : (f.entry b').type = (f.entry b).type) (henv : env b' = env b) :
    (f.redirect cs b').Tracks dead m env := by
  have hent := entry_redirect (b := b') (f := f)
    fun s hs => Nat.lt_of_lt_of_le (hcs s hs).1.1 h.sound.sp_le
  obtain ⟨-, -, hsp, -, -, -, hregs, hsize⟩ := redirect_fields cs b' f
  have hl : ∀ s, (f.redirect cs b').Live dead s ↔ f.Live dead s := by simp [Live, hsp]
  have htypes : ∀ s, ((f.redirect cs b').entry s).type = (f.entry s).type := by
    intro s
    rw [hent]
    split <;> rfl
  have hdata : ∀ s, ((f.redirect cs b').entry s).data = (f.entry s).data := by
    intro s
    rw [hent]
    split <;> rfl
  have htag : ∀ s, ((f.redirect cs b').entry s).tag = (f.entry s).tag := by
    intro s
    rw [hent]
    split <;> rfl
  obtain ⟨⟨h₁, h₂, h₃, h₄, h₅, h₆, h₇, h₈, h₉, h₁₀⟩, hr, hh⟩ := h
  refine ⟨⟨?_, ?_, ?_, ?_, ?_, ?_, ?_, ?_, ?_, ?_⟩, ?_, ?_⟩
  · rw [hsp, hsize]
    exact h₁
  · intro s c hls hrole
    have hls' := (hl s).1 hls
    by_cases hs : s ∈ cs
    · rw [hent, if_pos hs] at hrole
      cases hrole
      exact ⟨(hcs s hs).2.2, hlive.2, by rw [hent, if_neg hmem]; exact hown⟩
    · rw [hent, if_neg hs] at hrole
      obtain ⟨hlt, hd, ho⟩ := h₂ s c hls' hrole
      refine ⟨hlt, hd, ?_⟩
      have hc : c ∉ cs := by
        intro hc
        rw [(hcs c hc).2.1] at ho
        cases ho
      rw [hent, if_neg hc]
      exact ho
  · intro s hls hrole
    rw [hdata, htag]
    refine h₃ s ((hl s).1 hls) fun ho => hrole ?_
    have hs : s ∉ cs := by
      intro hs
      rw [(hcs s hs).2.1] at ho
      cases ho
    rw [hent, if_neg hs]
    exact ho
  · intro s v hls hrole
    have hs : s ∉ cs := by
      intro hs
      rw [hent, if_pos hs] at hrole
      cases hrole
    rw [hent, if_neg hs] at hrole ⊢
    exact h₄ s v ((hl s).1 hls) hrole
  · simpa only [hl, hdata, htypes] using h₅
  · simpa only [hl, htag, htypes] using h₆
  · simpa only [hl, hdata, hregs] using h₇
  · simpa only [hl, htag, hregs] using h₈
  · simpa only [hl, hdata, hregs] using h₉
  · simpa only [hregs] using h₁₀
  · rw [hsp]
    exact hr
  · intro s hls
    have hls' := (hl s).1 hls
    by_cases hs : s ∈ cs
    · obtain ⟨-, hrole, -⟩ := hcs s hs
      obtain ⟨he, hst⟩ := (holds_copy hrole).1 (hh s hls')
      rw [holds_copy (b := b') (by rw [hent, if_pos hs]), htypes, htype, henv, hent, if_pos hs]
      exact ⟨he, hst⟩
    · exact (hh s hls').congr (by rw [hent, if_neg hs]) rfl (fun c _ => ⟨rfl, htypes c⟩) rfl
        (fun _ _ => rfl) fun _ _ => rfl

/-! ### Rearranging slots -/

/-- Slots may have found other owners, but everything known about their values stays. -/
structure Shuffles [Cell.Discipline] (f : Frame) (dead : Option Slot) (m : Machine)
    (env : Slot → Value) (f' : Frame) (m' : Machine) : Prop where
  tracks : f'.Tracks dead m' env
  keeps : f.Keeps m f' m'
  argCount : f'.argCount = f.argCount
  localCount : f'.localCount = f.localCount
  sp : f'.sp = f.sp
  maxSp : f'.maxSp = f.maxSp
  pc : f'.pc = f.pc
  baseTypes : f'.baseTypes = f.baseTypes
  knownType : ∀ s, f.Live dead s → f'.knownType s = f.knownType s
  constant? : ∀ s, f.Live dead s → f'.constant? s = f.constant? s
  types : ∀ s, f.Live dead s → f'.types s = f.types s
  init : ∀ s, f.Live dead s → f'.initTarget? s = f.initTarget? s

/-- Loading moves values around. -/
theorem Loads.shuffles (h : f.Loads dead m env f' m') :
    f.Shuffles dead m env f' m' where
  __ := h
  argCount := h.view.argCount
  localCount := h.view.localCount
  sp := h.view.sp
  maxSp := h.view.maxSp
  pc := h.view.pc
  baseTypes := h.view.baseTypes
  knownType s _ := h.view.knownType s
  constant? s _ := by simp only [constant?, backingEntry, h.view.backing, h.view.constant?]
  types s _ := by
    simp only [types, backingEntry, h.view.backing, h.view.type, h.view.types]
    rfl
  init s _ := by simp only [initTarget?, backingEntry, h.view.backing, h.view.init]

/-- Values are moved around twice. -/
theorem Shuffles.trans {f₂ f₃ : Frame} {m₂ m₃ : Machine} (h : f₁.Shuffles dead m₁ env f₂ m₂)
    (h' : f₂.Shuffles dead m₂ env f₃ m₃) : f₁.Shuffles dead m₁ env f₃ m₃ := by
  have hl : ∀ s, f₁.Live dead s → f₂.Live dead s := by
    intro s hs
    simpa only [Live, h.sp] using hs
  obtain ⟨a₁, a₂, a₃, a₄, a₅, a₆, a₇, a₈, a₉, a₁₀, a₁₁, a₁₂⟩ := h
  obtain ⟨b₁, b₂, b₃, b₄, b₅, b₆, b₇, b₈, b₉, b₁₀, b₁₁, b₁₂⟩ := h'
  exact ⟨b₁, a₂.trans b₂, b₃.trans a₃, b₄.trans a₄, b₅.trans a₅, b₆.trans a₆, b₇.trans a₇,
    b₈.trans a₈, fun s hs => (b₉ s (hl s hs)).trans (a₉ s hs),
    fun s hs => (b₁₀ s (hl s hs)).trans (a₁₀ s hs),
    fun s hs => (b₁₁ s (hl s hs)).trans (a₁₁ s hs),
    fun s hs => (b₁₂ s (hl s hs)).trans (a₁₂ s hs)⟩

/-- The slot `s`, which copied `b`, owns its value now; otherwise the frames say the same. -/
structure Adopts (f f' : Frame) (s b : Slot) : Prop where
  argCount : f'.argCount = f.argCount
  localCount : f'.localCount = f.localCount
  sp : f'.sp = f.sp
  maxSp : f'.maxSp = f.maxSp
  pc : f'.pc = f.pc
  baseTypes : f'.baseTypes = f.baseTypes
  self : (f'.entry s).role = .own ∧ (f'.entry s).type = (f.entry b).type ∧
    (f'.entry s).types = (f.entry b).types ∧ (f'.entry s).init = (f.entry b).init
  other : ∀ s', s' ≠ s → (f'.entry s').role = (f.entry s').role ∧
    (f'.entry s').type = (f.entry s').type ∧ (f'.entry s').types = (f.entry s').types ∧
    (f'.entry s').init = (f.entry s').init

/-- The backing entry says the same after a slot has come to own its value. -/
theorem Adopts.backingEntry (ha : f.Adopts f' s b) (h : f.Sound dead)
    (hrole : (f.entry s).role = .copyOf b) {s' : Slot} (hl' : f.Live dead s') :
    (f'.backingEntry s').constant? = (f.backingEntry s').constant? ∧
      (f'.backingEntry s').type = (f.backingEntry s').type ∧
      (f'.backingEntry s').types = (f.backingEntry s').types ∧
      (f'.backingEntry s').init = (f.backingEntry s').init := by
  by_cases hs : s' = s
  · subst hs
    have hb' := backing_of_own ha.self.1
    have hb := backing_of_copy hrole
    have hown := (h.copy s' b hl' hrole).2.2
    simp only [Frame.backingEntry, hb', hb, Entry.constant?, ha.self, hown, and_self]
  · have hback : f'.backing s' = f.backing s' := by
      simp only [Frame.backing, Entry.copyOf?, (ha.other s' hs).1]
    have hne : f.backing s' ≠ s := by
      cases hr : (f.entry s').role with
      | copyOf b' =>
        have hb := backing_of_copy hr
        rw [hb]
        rintro rfl
        rw [(h.copy s' b' hl' hr).2.2] at hrole
        cases hrole
      | own | constant v => simpa [Frame.backing, Entry.copyOf?, hr] using hs
    obtain ⟨h₁, h₂, h₃, h₄⟩ := ha.other _ hne
    simp only [Frame.backingEntry, hback, Entry.constant?, h₁, h₂, h₃, h₄, and_self]

/-- A copy that owns its value now has not changed it. -/
theorem Adopts.shuffles (ha : f.Adopts f' s b) (h : f.Sound dead)
    (hrole : (f.entry s).role = .copyOf b) (ht : f'.Tracks dead m' env) (hk : f.Keeps m f' m') :
    f.Shuffles dead m env f' m' where
  __ := ha
  tracks := ht
  keeps := hk
  knownType s' hl := (ha.backingEntry h hrole hl).2.1
  constant? s' hl := (ha.backingEntry h hrole hl).1
  types s' hl := by
    obtain ⟨-, h₁, h₂, -⟩ := ha.backingEntry h hrole hl
    simp only [types, h₁, h₂]
  init s' hl := (ha.backingEntry h hrole hl).2.2.2

/-- The last step of making a copy own its value: its registers are bound, and its entry is
replaced. -/
theorem Loads.adopt (hloads : f.Loads dead m env f₁ m₁) (h : f.Sound dead) (hl : f.Live dead s)
    (hrole : (f.entry s).role = .copyOf b) {n : Nat}
    (hfacts : e.role = .own ∧ e.type = (f.entry b).type ∧ e.types = (f.entry b).types ∧
      e.init = (f.entry b).init) (hregs : f₁.regs.Assigns s e g)
    (hheld : ∀ r, f.regs.Held r → g.binding r = f₁.regs.binding r)
    (hpinned : ∀ r, f₁.regs.isPinned r → g.isPinned r)
    (hfheld : ∀ r, f.regs.FHeld r → g.fbinding r = f₁.regs.fbinding r)
    (hfpinned : ∀ r, f₁.regs.isFPinned r → g.isFPinned r) (howns : e.Owns m₁ s (env s)) :
    f.Shuffles dead m env { f₁.setEntry s e with regs := g, generation := n } m₁ ∧
      f.Adopts { f₁.setEntry s e with regs := g, generation := n } s b := by
  obtain ⟨hv₁, hv₂, hv₃, hv₄, hv₅, hv₆, hv₇, hv₈, hv₉, hv₁₀⟩ := hloads.view
  have hl₁ : f₁.Live dead s := hloads.view.live.2 hl
  have hs : s < f₁.entries.size := Nat.lt_of_lt_of_le hl₁.1 hloads.tracks.sound.sp_le
  have ha : f.Adopts { f₁.setEntry s e with regs := g, generation := n } s b := by
    refine ⟨hv₁, hv₂, hv₃, hv₄, hv₅, hv₆, ?_, ?_⟩
    · have hself : ({ f₁.setEntry s e with regs := g, generation := n } : Frame).entry s = e :=
        (entry_setEntry f₁ s s e).trans (if_pos ⟨rfl, hs⟩)
      rw [hself]
      exact hfacts
    · intro s' hne
      have hother : ({ f₁.setEntry s e with regs := g, generation := n } : Frame).entry s' =
          f₁.entry s' := (entry_setEntry f₁ s s' e).trans (if_neg fun hc => hne hc.1.symm)
      rw [hother]
      exact ⟨hv₇ s', hv₈ s', hv₉ s', hv₁₀ s'⟩
  refine ⟨ha.shuffles h hrole ?_ ?_, ha⟩
  · exact hloads.tracks.adopt hl₁ ((hv₇ s).trans hrole) hfacts.1 hregs howns
  · obtain ⟨k₁, k₂, k₃, k₄, k₅, k₆, k₇⟩ := hloads.keeps
    exact ⟨fun r hr => (hheld r hr).trans (k₁ r hr), k₂, fun r hr => hpinned r (k₃ r hr),
      fun r hr => (hfheld r hr).trans (k₄ r hr), k₅, fun r hr => hfpinned r (k₆ r hr), k₇⟩

/-- Redirecting copies to a slot that says the same changes nothing that is known. -/
theorem Tracks.redirect_shuffles (h : f.Tracks dead m env)
    (hcs : ∀ s ∈ cs, f.Live dead s ∧ (f.entry s).role = .copyOf b ∧ b' < s) (hlive : f.Live dead b')
    (hown : (f.entry b').role = .own) (hbown : (f.entry b).role = .own) (hmem : b' ∉ cs)
    (htype : (f.entry b').type = (f.entry b).type) (htypes : (f.entry b').types = (f.entry b).types)
    (hinit : (f.entry b').init = (f.entry b).init) (henv : env b' = env b) :
    f.Shuffles dead m env (f.redirect cs b') m := by
  have hent := entry_redirect (b := b') (f := f)
    fun s hs => Nat.lt_of_lt_of_le (hcs s hs).1.1 h.sound.sp_le
  obtain ⟨e₁, e₂, e₃, e₄, e₅, e₆, e₇, -⟩ := redirect_fields cs b' f
  have key : ∀ s, f.Live dead s →
      ((f.redirect cs b').backingEntry s).constant? = (f.backingEntry s).constant? ∧
      ((f.redirect cs b').backingEntry s).type = (f.backingEntry s).type ∧
      ((f.redirect cs b').backingEntry s).types = (f.backingEntry s).types ∧
      ((f.redirect cs b').backingEntry s).init = (f.backingEntry s).init := by
    intro s hl
    by_cases hs : s ∈ cs
    · have hb := backing_of_copy (hcs s hs).2.1
      have hb' : (f.redirect cs b').backing s = b' := by
        simp [Frame.backing, Entry.copyOf?, hent, hs]
      simp only [Frame.backingEntry, hb, hb', hent, hmem, if_false, Entry.constant?, hown, hbown,
        htype, htypes, hinit, and_self]
    · have hb : (f.redirect cs b').backing s = f.backing s := by
        simp only [Frame.backing, hent, hs, if_false]
      have hbs : f.backing s ∉ cs := by
        intro hbs
        cases hr : (f.entry s).role with
        | copyOf c =>
          have hc := backing_of_copy hr
          rw [hc] at hbs
          have := (h.sound.copy s c hl hr).2.2
          rw [(hcs c hbs).2.1] at this
          cases this
        | own | constant v => exact hs (by simpa [Frame.backing, Entry.copyOf?, hr] using hbs)
      simp only [Frame.backingEntry, hb, hent, hbs, if_false, and_self]
  refine ⟨h.redirect hcs hlive hown hmem htype henv, ?_, e₁, e₂, e₃, e₄, e₅, e₆,
    fun s hs => (key s hs).2.1, fun s hs => (key s hs).1, ?_, fun s hs => (key s hs).2.2.2⟩
  · constructor <;> simp [e₇, Machine.SameWorld.refl]
  · intro s hs
    obtain ⟨-, h₁, h₂, -⟩ := key s hs
    simp only [Frame.types, h₁, h₂]

end Frame

namespace FrameM

variable {f : Frame} {dead : Option Slot} {m : Machine} {env : Slot → Value} {s : Slot}

/-! ### Copies -/

section

variable {b : Slot} (h : f.Tracks dead m env) (hl : f.Live dead s)
  (hrole : (f.entry s).role = .copyOf b)
include h hl hrole

/-- A copy has the value of a slot that owns it. -/
theorem copied : f.Live dead b ∧ env s = env b ∧ (f.entry b).type.Describes (env b) ∧
    f.knownType b = (f.entry b).type := by
  obtain ⟨hlt, hdead, hown⟩ := h.sound.copy s b hl hrole
  have hlb : f.Live dead b := ⟨Nat.lt_trans hlt hl.1, hdead⟩
  refine ⟨hlb, ((holds_copy hrole).1 (h.holds s hl)).1, h.describes hlb hown, ?_⟩
  simp [knownType, backingEntry, backing, copyOf?, hown]

/-- Memory already has the value. -/
theorem materialize_synced_ensures (hsync : (f.entry s).isSynced) :
    Ensures (update fun f' => (f'.setEntry s { unsynced (f.entry b).type (f.entry b).types with
      init := (f.entry b).init }.synced).bumpGeneration) f m fun _ f' m' =>
      f.Shuffles dead m env f' m' ∧ f.Adopts f' s b := by
  obtain ⟨-, henv, hdesc, -⟩ := copied h hl hrole
  obtain ⟨c, u, hc, hu, hfit⟩ := ((holds_copy hrole).1 (h.holds s hl)).2 hsync
  refine ensures_update ?_
  obtain ⟨-, -, hbare, -, -, -, hdataIff, htagIff, hfdataIff, hftag⟩ := h.sound
  have hbare := hbare s hl (by simp [hrole])
  refine (Loads.refl h).adopt h.sound hl hrole ⟨rfl, rfl, rfl, rfl⟩
    ⟨?_, ?_, ?_, ?_, ?_, hftag⟩ (fun _ _ => rfl) (fun _ => id) (fun _ _ => rfl)
    (fun _ => id) (owns_inMemory rfl rfl hc hu hfit (henv ▸ hdesc))
  all_goals grind [synced, unsynced]

/-- A number known as a double is copied into a double register. -/
theorem materialize_double_ensures (htype : (f.entry b).type = .double) :
    Ensures (do
      let r ← copyNumber b
      updateRegs (·.fbind r (.data s))
      let owned ← pure { unsynced (f.entry b).type (f.entry b).types with
        init := (f.entry b).init, data := .freg r }
      update fun f => (f.setEntry s owned).bumpGeneration) f m fun _ f' m' =>
      f.Shuffles dead m env f' m' ∧ f.Adopts f' s b := by
  obtain ⟨hlb, henv, hdesc, -⟩ := copied h hl hrole
  have hnum : (env b).isNumber := hdesc.2 htype
  apply ensures_bind
  apply (copyNumber_ensures h hlb).mono
  rintro r f₁ m₁ ⟨hloads, htemp, hheld, d, hd, hv⟩
  have hlt := lt_of_fbinding htemp rfl
  refine ensures_regs (ensures_bind (ensures_pure (ensures_update ?_)))
  have hbare := hloads.tracks.sound.bare s (hloads.view.live.2 hl)
    (by simp [hloads.view.role, hrole])
  obtain ⟨-, -, -, -, -, -, hdataIff, htagIff, hfdataIff, hftag⟩ := hloads.tracks.sound
  refine hloads.adopt h.sound hl hrole ⟨rfl, rfl, rfl, rfl⟩
    ⟨fun _ _ => htype, ?_, ?_, ?_, ?_, ?_⟩ (fun _ _ => rfl) (fun _ => id) ?_
    (fun _ => by simp) ((owns_freg rfl).2 ⟨d, hd, henv ▸ hv hnum, fun hs => by cases hs⟩)
  all_goals grind [unsynced]

/-- Both words of a value of unknown type are copied. -/
theorem materialize_unknown_ensures (htype : (f.entry b).type = .unknown) :
    Ensures (do
      let tag ← copyTag b
      let payload ← withPinned tag (copyData b)
      updateRegs (·.bind tag (.tag s))
      updateRegs (·.bind payload (.data s))
      let owned ← pure { unsynced (f.entry b).type (f.entry b).types with
        init := (f.entry b).init, data := .reg payload, tag := some tag }
      update fun f => (f.setEntry s owned).bumpGeneration) f m fun _ f' m' =>
      f.Shuffles dead m env f' m' ∧ f.Adopts f' s b := by
  obtain ⟨hlb, henv, -, hkt⟩ := copied h hl hrole
  apply ensures_bind
  apply (copyTag_ensures h hlb).mono
  rintro tag f₁ m₁ ⟨hloads₁, htemp₁, hheld₁, w, hw, c₁, ⟨u₁, hu₁, hfit₁⟩, rfl⟩
  have hpin : (f₁.mapRegs (·.setPinned tag true)).Tracks dead m₁ env :=
    hloads₁.tracks.of_regs (fun _ => by simp) fun _ => .inl rfl
  apply ensures_bind
  rw [withPinned_eq]
  apply ensures_marked
  apply (copyData_ensures hpin (hloads₁.view.live.2 hlb)).mono
  rintro payload f₂ m₂ ⟨hloads₂, htemp₂, hheld₂, w₂, hw₂, c₂, ⟨u₂, hu₂, hfit₂⟩, rfl⟩
  have hloads := hloads₁.trans hloads₂.unpin
  have htag₃ := (hloads₂.unpin.keeps.binding tag (.inl htemp₁)).trans htemp₁
  have hw₁ := (hloads₂.unpin.keeps.contents tag (.inl htemp₁)).trans hw
  have hpay₃ : (if f₁.regs.isPinned tag then f₂ else
      f₂.mapRegs (·.setPinned tag false)).regs.binding payload = .temp := by
    split <;> simpa using htemp₂
  -- a held register is not handed out again
  have hne : tag ≠ payload := by
    rintro rfl
    exact hheld₂ (.inl (by simpa using htemp₁))
  have hheld₃ : ¬ f.regs.Held payload := by
    intro hr
    apply hheld₂
    have := hloads₁.keeps.held hr
    grind [Held]
  generalize (if f₁.regs.isPinned tag then f₂ else f₂.mapRegs (·.setPinned tag false)) = f₃ at *
  have hlt := lt_of_binding htag₃ rfl
  have hlt' := lt_of_binding hpay₃ rfl
  have hval₁ : u₁ = env b := hfit₁.eq (by rw [hkt, htype]; simp)
  have hval₂ : u₂ = env b := hfit₂.eq (by
    rw [← hkt, ← hloads₁.view.knownType b] at htype
    exact fun hd => by cases htype.symm.trans hd)
  have htags : c₁.tag = c₂.tag := by
    rw [Cell.tag_of_reads hu₁, Cell.tag_of_reads hu₂, hval₁, hval₂]
  refine ensures_regs (ensures_bind (ensures_updateRegs
    (ensures_bind (ensures_pure (ensures_update ?_)))))
  have hbare := hloads.tracks.sound.bare s (hloads.view.live.2 hl)
    (by simp [hloads.view.role, hrole])
  obtain ⟨-, -, -, -, -, -, hdataIff, htagIff, hfdataIff, hftag⟩ := hloads.tracks.sound
  have hwords : ({ unsynced (f.entry b).type (f.entry b).types with
      init := (f.entry b).init, data := .reg payload, tag := some tag } :
        Entry).Words m₂ s c₂ := by
    constructor <;> simp [tagWord?, payloadWord?, unsynced, htype,
      tag?, hw₁, hw₂, htags]
  refine hloads.adopt h.sound hl hrole ⟨rfl, rfl, rfl, rfl⟩
    ⟨by simp [unsynced], fun _ _ => htype, ?_, ?_, ?_, hftag⟩ ?_ ?_ (fun _ _ => rfl)
    (fun _ => id)
    ((owns_words (by simp)).2 ⟨c₂, u₂, hwords, hu₂, ?_⟩)
  · grind [unsynced]
  · grind [unsynced]
  · grind [unsynced]
  · grind
  · grind
  · simp [unsynced, htype, Fits, hval₂, henv]

/-- The payload of a value of another known type is copied. -/
theorem materialize_tagged_ensures (hnd : (f.entry b).type ≠ .double)
    (hnu : (f.entry b).type ≠ .unknown) :
    Ensures (do
      let payload ← copyData b
      updateRegs (·.bind payload (.data s))
      let owned ← pure { unsynced (f.entry b).type (f.entry b).types with
        init := (f.entry b).init, data := .reg payload }
      update fun f => (f.setEntry s owned).bumpGeneration) f m fun _ f' m' =>
      f.Shuffles dead m env f' m' ∧ f.Adopts f' s b := by
  obtain ⟨hlb, henv, hdesc, hkt⟩ := copied h hl hrole
  obtain ⟨t, ht⟩ : ∃ t, (f.entry b).type.tag? = some t := by
    cases hk : (f.entry b).type <;> simp_all [tag?]
  apply ensures_bind
  apply (copyData_ensures h hlb).mono
  rintro payload f₁ m₁ ⟨hloads, htemp, hheld, w, hw, c, ⟨u, hu, hfit⟩, rfl⟩
  have hlt := lt_of_binding htemp rfl
  have hval : u = env b := hfit.eq (by rw [hkt]; exact hnd)
  have htag : t.word = c.tag := by rw [Cell.tag_of_reads hu, hval, hdesc.1 t ht]
  refine ensures_regs (ensures_bind (ensures_pure (ensures_update ?_)))
  have hbare := hloads.tracks.sound.bare s (hloads.view.live.2 hl)
    (by simp [hloads.view.role, hrole])
  obtain ⟨-, -, -, -, -, -, hdataIff, htagIff, hfdataIff, hftag⟩ := hloads.tracks.sound
  have hwords : ({ unsynced (f.entry b).type (f.entry b).types with
      init := (f.entry b).init, data := .reg payload } : Entry).Words m₁ s c := by
    constructor <;> simp [tagWord?, payloadWord?, unsynced, ht, hw, htag]
  refine hloads.adopt h.sound hl hrole ⟨rfl, rfl, rfl, rfl⟩
    ⟨by simp [unsynced], by simp [unsynced], ?_, ?_, ?_, hftag⟩ ?_
    (fun _ => by simp) (fun _ _ => rfl) (fun _ => id)
    ((owns_words (by simp)).2 ⟨c, u, hwords, hu, ?_⟩)
  · grind [unsynced]
  · grind [unsynced]
  · grind [unsynced]
  · grind
  · rw [henv]
    exact hkt ▸ hfit

/-- Making a copy own its value. -/
theorem materialize_copy_ensures :
    Ensures (materialize s) f m fun _ f' m' =>
      f.Shuffles dead m env f' m' ∧ f.Adopts f' s b := by
  unfold materialize
  apply ensures_look
  simp only [copyOf?, hrole]
  split
  case isTrue hsync => exact ensures_bind (ensures_pure (materialize_synced_ensures h hl hrole hsync))
  case isFalse =>
    split
    case h_1 htype => exact materialize_double_ensures h hl hrole htype
    case h_2 htype => exact materialize_unknown_ensures h hl hrole htype
    case h_3 hnd hnu => exact materialize_tagged_ensures h hl hrole hnd hnu

end

/-- `materialize` changes nothing that is known about the values. -/
theorem materialize_ensures (h : f.Tracks dead m env) (hl : f.Live dead s) :
    Ensures (materialize s) f m fun _ f' m' => f.Shuffles dead m env f' m' := by
  cases hrole : (f.entry s).role with
  | copyOf b => exact (materialize_copy_ensures h hl hrole).mono fun _ _ _ hQ => hQ.1
  | own | constant v =>
    unfold materialize
    apply ensures_look
    simp only [copyOf?, hrole]
    exact ensures_pure (Loads.refl h).shuffles

/-- After `uncopy` no slot copies the given one. -/
theorem uncopy_ensures (h : f.Tracks none m env) :
    Ensures (uncopy s) f m fun _ f' m' => f.Shuffles none m env f' m' ∧
      ∀ s', s' < f'.sp → (f'.entry s').role ≠ .copyOf s := by
  unfold uncopy
  apply ensures_look
  split
  · next hnil =>
    apply ensures_pure
    refine ⟨(Loads.refl h).shuffles, fun s' hs' hrole => ?_⟩
    have hlt := (h.sound.copy s' s ⟨hs', by simp⟩ hrole).1
    have : s' ∈ f.copiesOf s := mem_copiesOf.2 ⟨hs', hlt, hrole⟩
    rw [hnil] at this
    cases this
  · next first rest hcopies =>
    have hfirst := mem_copiesOf.1 (hcopies ▸ List.mem_cons_self : first ∈ f.copiesOf s)
    have hrest : ∀ c ∈ rest, c < f.sp ∧ s < c ∧ (f.entry c).role = .copyOf s := fun c hc =>
      mem_copiesOf.1 (hcopies ▸ List.mem_cons_of_mem first hc : c ∈ f.copiesOf s)
    have hlt := lt_of_copiesOf hcopies
    have hl : f.Live none first := ⟨hfirst.1, by simp⟩
    have hsown := (h.sound.copy first s hl hfirst.2.2).2.2
    have henv := ((holds_copy hfirst.2.2).1 (h.holds first hl)).1
    apply ensures_bind
    apply (materialize_copy_ensures h hl hfirst.2.2).mono
    rintro - f₁ m₁ ⟨hsh, ha⟩
    apply ensures_update
    have hne : s ≠ first := Nat.ne_of_lt hfirst.2.1
    have hcs : ∀ c ∈ rest, f₁.Live none c ∧ (f₁.entry c).role = .copyOf s ∧ first < c := by
      intro c hc
      have hne' : c ≠ first := Ne.symm (Nat.ne_of_lt (hlt c hc))
      exact ⟨⟨by rw [ha.sp]; exact (hrest c hc).1, by simp⟩,
        (ha.other c hne').1.trans (hrest c hc).2.2, hlt c hc⟩
    have hmem : first ∉ rest := fun hf => Nat.lt_irrefl _ (hlt first hf)
    obtain ⟨h₁, h₂, h₃, h₄⟩ := ha.self
    obtain ⟨g₁, g₂, g₃, g₄⟩ := ha.other s hne
    have hre := hsh.tracks.redirect_shuffles hcs ⟨by rw [ha.sp]; exact hfirst.1, by simp⟩ h₁
      (g₁.trans hsown) hmem (h₂.trans g₂.symm) (h₃.trans g₃.symm) (h₄.trans g₄.symm) henv
    refine ⟨hsh.trans hre, ?_⟩
    intro s' hs' hrole
    change s' < (f₁.redirect rest first).sp at hs'
    change ((f₁.redirect rest first).entry s').role = _ at hrole
    rw [entry_redirect fun c hc => Nat.lt_of_lt_of_le (hcs c hc).1.1
      hsh.tracks.sound.sp_le] at hrole
    split at hrole
    · simp only [Role.copyOf.injEq] at hrole
      exact hne hrole.symm
    · next hnot =>
      by_cases hs'f : s' = first
      · rw [hs'f, h₁] at hrole
        cases hrole
      · rw [(ha.other s' hs'f).1] at hrole
        have hsp : s' < f.sp := by
          rw [hre.sp, ha.sp] at hs'
          exact hs'
        have hlt' := (h.sound.copy s' s ⟨hsp, by simp⟩ hrole).1
        have hmem' : s' ∈ f.copiesOf s := mem_copiesOf.2 ⟨hsp, hlt', hrole⟩
        rw [hcopies] at hmem'
        rcases List.mem_cons.1 hmem' with h' | h'
        · exact hs'f h'
        · exact hnot h'

/-- `separate` changes nothing that is known about the values. -/
theorem separate_ensures (h : f.Tracks dead m env) {lhs rhs : Slot} (hl : f.Live dead rhs) :
    Ensures (separate lhs rhs) f m fun _ f' m' => f.Shuffles dead m env f' m' := by
  unfold separate
  apply ensures_look
  split
  · exact materialize_ensures h hl
  · exact ensures_pure (Loads.refl h).shuffles

end FrameM

end FastPath
