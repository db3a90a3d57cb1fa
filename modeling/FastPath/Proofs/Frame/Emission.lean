import FastPath.Proofs.Frame.Tracking

/-!
# What a tracker operation ensures

A tracker operation changes the frame and emits code. It is right if the code, run on the
machine that the old frame describes, leads to a machine that the new frame describes. The
two are followed together: `FrameM.Ensures` runs the operation on a frame and its code on a
machine, and asks that what comes out satisfies a postcondition. Nothing is asked of an
operation that fails.

Most operations only move values around. `Frame.Loads` says what they all satisfy: no slot
changes its value, and no register that somebody relies on is touched. Those are the
temporaries and the pinned registers, here called held.

## Main results

* `FrameM.ensures_bind` and its companions: one rule for each way to build an operation.
* `Frame.Loads.trans`: operations that only move values compose.
-/

namespace FastPath

variable {D : Cell.Discipline}

namespace FrameM

variable {α β : Type} {f : Frame} {m m' : Machine}

/-! ### Running an operation -/

theorem bind_run (x : FrameM α) (k : α → FrameM β) (s : Emission) : (x >>= k) s =
    match x s with
    | .ok a s' => k a s'
    | .error e s' => .error e s' := by
  change EStateM.bind x k s = _
  unfold EStateM.bind
  cases x s <;> rfl

theorem pure_run (a : α) (s : Emission) : (pure a : FrameM α) s = .ok a s := rfl

theorem frame_run (s : Emission) : frame s = .ok s.frame s := rfl

theorem update_run (g : Frame → Frame) (s : Emission) :
    update g s = .ok () ⟨g s.frame, s.code⟩ :=
  rfl

theorem updateRegs_run (g : RegisterFile → RegisterFile) (s : Emission) :
    updateRegs g s = .ok () ⟨s.frame.mapRegs g, s.code⟩ :=
  rfl

theorem emit_run (i : Inst) (s : Emission) : emit i s = .ok () ⟨s.frame, s.code.push i⟩ := rfl

/-! ### Postconditions -/

/-- If the operation succeeds on the frame, the code it emits runs on the machine, and the
result, the new frame and the new machine satisfy the postcondition. -/
def Ensures (x : FrameM α) (f : Frame) (m : Machine) (Q : α → Frame → Machine → Prop) : Prop :=
  ∀ code a s', x ⟨f, code⟩ = .ok a s' →
    ∃ is m', s'.code.toList = code.toList ++ is ∧ Runs is m m' ∧ Q a s'.frame m'

variable {x : FrameM α} {Q : α → Frame → Machine → Prop} {a : α} {code : Array Inst} {s' : Emission}

theorem Ensures.mono {Q' : α → Frame → Machine → Prop} (h : Ensures x f m Q)
    (hQ : ∀ a f' m', Q a f' m' → Q' a f' m') : Ensures x f m Q' := by
  intro code a s' hx
  obtain ⟨is, m', hcode, hruns, hq⟩ := h code a s' hx
  exact ⟨is, m', hcode, hruns, hQ _ _ _ hq⟩

theorem ensures_pure (h : Q a f m) : Ensures (pure a) f m Q := by
  intro code b s' hx
  cases hx
  exact ⟨[], m, by simp, .nil m, h⟩

/-- One operation after the other. -/
theorem ensures_bind {k : α → FrameM β} {Q : β → Frame → Machine → Prop}
    (h : Ensures x f m fun a f' m' => Ensures (k a) f' m' Q) : Ensures (x >>= k) f m Q := by
  intro code b s'' hx
  rw [bind_run] at hx
  split at hx
  case h_2 => cases hx
  case h_1 a s' hxa =>
    obtain ⟨is, m', hcode, hruns, hk⟩ := h code a s' hxa
    obtain ⟨js, m'', hcode', hruns', hq⟩ := hk s'.code b s'' hx
    exact ⟨is ++ js, m'', by rw [hcode', hcode, List.append_assoc],
      runs_append hruns hruns', hq⟩

theorem ensures_frame {Q : Frame → Frame → Machine → Prop} (h : Q f f m) :
    Ensures frame f m Q := by
  intro code a s' hx
  cases hx
  exact ⟨[], m, by simp, .nil m, h⟩

theorem ensures_update {g : Frame → Frame} {Q : Unit → Frame → Machine → Prop}
    (h : Q () (g f) m) : Ensures (update g) f m Q := by
  intro code a s' hx
  cases hx
  exact ⟨[], m, by simp, .nil m, h⟩

theorem ensures_updateRegs {g : RegisterFile → RegisterFile} {Q : Unit → Frame → Machine → Prop}
    (h : Q () (f.mapRegs g) m) : Ensures (updateRegs g) f m Q :=
  ensures_update h

theorem ensures_emit {i : Inst} {Q : Unit → Frame → Machine → Prop} (hi : Executes i m m')
    (h : Q () f m') : Ensures (emit i) f m Q := by
  intro code a s' hx
  cases hx
  exact ⟨[i], m', by simp, runs_singleton hi, h⟩

theorem ensures_emitAll {is : List Inst} {Q : Unit → Frame → Machine → Prop}
    (hr : Runs is m m') (h : Q () f m') : Ensures (emitAll is) f m Q := by
  intro code a s' hx
  cases hx
  exact ⟨is, m', by simp, hr, h⟩

theorem ensures_throw {e : CompileError} : Ensures (throw e) f m Q := by
  intro code a s' hx
  cases hx

theorem ensures_fail {v : Violation} : Ensures (fail v) f m Q := by
  intro code a s' hx
  cases hx

theorem ensures_look {k : Frame → FrameM β} {Q : β → Frame → Machine → Prop}
    (h : Ensures (k f) f m Q) : Ensures (frame >>= k) f m Q :=
  ensures_bind (ensures_frame h)

theorem ensures_regs {g : RegisterFile → RegisterFile} {k : Unit → FrameM β}
    {Q : β → Frame → Machine → Prop} (h : Ensures (k ()) (f.mapRegs g) m Q) :
    Ensures (updateRegs g >>= k) f m Q :=
  ensures_bind (ensures_updateRegs h)

/-- An operation whose result and code are known. -/
theorem ensures_of_ok {f' : Frame} {l : List Inst}
    (hx : ∀ code, x ⟨f, code⟩ = .ok a ⟨f', l.foldl Array.push code⟩) (hr : Runs l m m')
    (h : Q a f' m') : Ensures x f m Q := by
  intro code b s' hok
  rw [hx] at hok
  cases hok
  exact ⟨l, m', by simp, hr, h⟩

/-- Runs with a mark set on a register; a new mark is taken back on both ways out. -/
def marked (held : RegisterFile → Bool) (set clear : RegisterFile → RegisterFile) (x : FrameM α) :
    FrameM α := fun s =>
  let close (s' : Emission) : Emission :=
    if held s.frame.regs then s' else ⟨s'.frame.mapRegs clear, s'.code⟩
  match x ⟨s.frame.mapRegs set, s.code⟩ with
  | .ok a s' => .ok a (close s')
  | .error e s' => .error e (close s')

section Marks

variable (held : RegisterFile → Bool) (set clear : RegisterFile → RegisterFile) (x : FrameM α)

theorem finally_eq (s : Emission) :
    EStateM.map Prod.fst (tryFinally' (m := FrameM) x fun _ =>
      if (!held s.frame.regs) = true then updateRegs clear else pure ())
      ⟨s.frame.mapRegs set, s.code⟩ = marked held set clear x s := by
  simp only [EStateM.map, tryFinally', marked]
  cases x ⟨s.frame.mapRegs set, s.code⟩ <;> cases held s.frame.regs <;> rfl

theorem withPinned_eq (r : Reg) : withPinned r x =
    marked (·.isPinned r) (·.setPinned r true) (·.setPinned r false) x :=
  funext (finally_eq (·.isPinned r) (·.setPinned r true) (·.setPinned r false) x)

theorem withDoublePinned_eq (r : FReg) : withDoublePinned r x =
    marked (·.isFPinned r) (·.setFPinned r true) (·.setFPinned r false) x :=
  funext (finally_eq (·.isFPinned r) (·.setFPinned r true) (·.setFPinned r false) x)

end Marks

variable {held : RegisterFile → Bool} {set clear : RegisterFile → RegisterFile}

theorem marked_ok (h : marked held set clear x ⟨f, code⟩ = .ok a s') :
    ∃ s, x ⟨f.mapRegs set, code⟩ = .ok a s ∧
      s' = if held f.regs then s else ⟨s.frame.mapRegs clear, s.code⟩ := by
  simp only [marked] at h
  split at h
  · next s hs =>
    cases h
    exact ⟨s, hs, rfl⟩
  · cases h

theorem ensures_marked (h : Ensures x (f.mapRegs set) m fun a f' m' =>
    Q a (if held f.regs then f' else f'.mapRegs clear) m') :
    Ensures (marked held set clear x) f m Q := by
  intro code a s' hx
  obtain ⟨s, hs, rfl⟩ := marked_ok hx
  obtain ⟨is, m', hcode, hruns, hq⟩ := h code a s hs
  refine ⟨is, m', ?_, hruns, ?_⟩
  · split <;> exact hcode
  · rw [apply_ite Emission.frame]
    exact hq

end FrameM

/-! ### Operations that only move values -/

/-- The register is a temporary or pinned, and not to be taken. -/
def RegisterFile.Held (f : RegisterFile) (r : Reg) : Prop := f.binding r = .temp ∨ f.isPinned r

/-- The double register is a temporary or pinned, and not to be taken. -/
def RegisterFile.FHeld (f : RegisterFile) (r : FReg) : Prop :=
  f.fbinding r = .temp ∨ f.isFPinned r

namespace Frame

/-- The frames say the same about every slot, apart from where its value is. -/
structure SameView (f f' : Frame) : Prop where
  argCount : f'.argCount = f.argCount
  localCount : f'.localCount = f.localCount
  sp : f'.sp = f.sp
  maxSp : f'.maxSp = f.maxSp
  pc : f'.pc = f.pc
  baseTypes : f'.baseTypes = f.baseTypes
  role : ∀ s, (f'.entry s).role = (f.entry s).role
  type : ∀ s, (f'.entry s).type = (f.entry s).type
  types : ∀ s, (f'.entry s).types = (f.entry s).types
  init : ∀ s, (f'.entry s).init = (f.entry s).init

/-- Held registers stay bound and keep their contents. -/
structure Keeps (f : Frame) (m : Machine) (f' : Frame) (m' : Machine) : Prop where
  binding : ∀ r, f.regs.Held r → f'.regs.binding r = f.regs.binding r
  contents : ∀ r, f.regs.Held r → m'.reg r = m.reg r
  pinned : ∀ r, f.regs.isPinned r → f'.regs.isPinned r
  fbinding : ∀ r, f.regs.FHeld r → f'.regs.fbinding r = f.regs.fbinding r
  fcontents : ∀ r, f.regs.FHeld r → m'.freg r = m.freg r
  fpinned : ∀ r, f.regs.isFPinned r → f'.regs.isFPinned r
  world : m.SameWorld m'

/-- The new frame describes the new machine, with the same values, the same view of the
slots and the same held registers. -/
structure Loads [Cell.Discipline] (f : Frame) (dead : Option Slot) (m : Machine)
    (env : Slot → Value) (f' : Frame) (m' : Machine) : Prop where
  tracks : f'.Tracks dead m' env
  view : f.SameView f'
  keeps : f.Keeps m f' m'

/-- Registers have been taken from slots and given to none. -/
structure Unloads (f f' : Frame) : Prop where
  data : ∀ s, (f'.entry s).data = (f.entry s).data ∨ (f'.entry s).data = .memory
  tag : ∀ s, (f'.entry s).tag = (f.entry s).tag ∨ (f'.entry s).tag = none
  dataSynced : ∀ s, (f.entry s).dataSynced → (f'.entry s).dataSynced
  tagSynced : ∀ s, (f.entry s).tagSynced → (f'.entry s).tagSynced

theorem Unloads.mapRegs (f : Frame) (g : RegisterFile → RegisterFile) :
    f.Unloads (f.mapRegs g) :=
  ⟨fun _ => .inl rfl, fun _ => .inl rfl, fun _ => id, fun _ => id⟩

variable {f₁ f₂ f₃ f f' : Frame} {m m' m₁ m₂ m₃ : Machine}

theorem Unloads.trans (h : f₁.Unloads f₂) (h' : f₂.Unloads f₃) :
    f₁.Unloads f₃ where
  data s := by
    rcases h'.data s with hd | hd
    · rw [hd]
      exact h.data s
    · exact .inr hd
  tag s := by
    rcases h'.tag s with ht | ht
    · rw [ht]
      exact h.tag s
    · exact .inr ht
  dataSynced s hs := h'.dataSynced s (h.dataSynced s hs)
  tagSynced s hs := h'.tagSynced s (h.tagSynced s hs)

theorem SameView.refl (f : Frame) : f.SameView f := by constructor <;> intros <;> rfl

theorem SameView.mapRegs (f : Frame) (g : RegisterFile → RegisterFile) :
    f.SameView (f.mapRegs g) := by
  constructor <;> intros <;> rfl

theorem SameView.trans (h : f₁.SameView f₂) (h' : f₂.SameView f₃) :
    f₁.SameView f₃ where
  argCount := h'.argCount.trans h.argCount
  localCount := h'.localCount.trans h.localCount
  sp := h'.sp.trans h.sp
  maxSp := h'.maxSp.trans h.maxSp
  pc := h'.pc.trans h.pc
  baseTypes := h'.baseTypes.trans h.baseTypes
  role s := (h'.role s).trans (h.role s)
  type s := (h'.type s).trans (h.type s)
  types s := (h'.types s).trans (h.types s)
  init s := (h'.init s).trans (h.init s)

theorem Keeps.refl (f : Frame) (m : Machine) : f.Keeps m f m := by
  constructor <;> intros <;> first | rfl | assumption | exact .refl m

theorem Keeps.held (h : f.Keeps m f' m') {r : Reg} (hr : f.regs.Held r) : f'.regs.Held r := by
  rcases hr with ht | hp
  · exact .inl ((h.binding r (.inl ht)).trans ht)
  · exact .inr (h.pinned r hp)

theorem Keeps.fheld (h : f.Keeps m f' m') {r : FReg} (hr : f.regs.FHeld r) : f'.regs.FHeld r := by
  rcases hr with ht | hp
  · exact .inl ((h.fbinding r (.inl ht)).trans ht)
  · exact .inr (h.fpinned r hp)

/-- What is held is kept by one operation after the other. -/
theorem Keeps.trans (h : f₁.Keeps m₁ f₂ m₂) (h' : f₂.Keeps m₂ f₃ m₃) : f₁.Keeps m₁ f₃ m₃ where
  binding r hr := (h'.binding r (h.held hr)).trans (h.binding r hr)
  contents r hr := (h'.contents r (h.held hr)).trans (h.contents r hr)
  pinned r hr := h'.pinned r (h.pinned r hr)
  fbinding r hr := (h'.fbinding r (h.fheld hr)).trans (h.fbinding r hr)
  fcontents r hr := (h'.fcontents r (h.fheld hr)).trans (h.fcontents r hr)
  fpinned r hr := h'.fpinned r (h.fpinned r hr)
  world := h.world.trans h'.world

variable {dead : Option Slot} {env : Slot → Value}

theorem Loads.refl (h : f.Tracks dead m env) : f.Loads dead m env f m :=
  ⟨h, .refl f, .refl f m⟩

theorem Loads.trans (h : f₁.Loads dead m₁ env f₂ m₂) (h' : f₂.Loads dead m₂ env f₃ m₃) :
    f₁.Loads dead m₁ env f₃ m₃ :=
  ⟨h'.tracks, h.view.trans h'.view, h.keeps.trans h'.keeps⟩

/-- Moving the value of one slot. The new registers and the new memory of the slot are
given by the entry `e`, the new state of the register file by `g`. Only registers that were
held at the start of the operation have to be kept. -/
theorem Loads.move {f₀ : Frame} {m₀ : Machine} (h₀ : f₀.Loads dead m₀ env f m) {s : Slot}
    {e : Entry} {g : RegisterFile} {n : Nat} (hl : f.Live dead s) (hown : (f.entry s).role = .own)
    (hfacts : e.role = .own ∧ e.type = (f.entry s).type ∧ e.types = (f.entry s).types ∧
      e.init = (f.entry s).init) (hregs : f.regs.Assigns s e g)
    (hheld : ∀ r, f₀.regs.Held r → g.binding r = f.regs.binding r ∧ m'.reg r = m.reg r)
    (hpinned : ∀ r, f.regs.isPinned r → g.isPinned r)
    (hfheld : ∀ r, f₀.regs.FHeld r → g.fbinding r = f.regs.fbinding r ∧ m'.freg r = m.freg r)
    (hfpinned : ∀ r, f.regs.isFPinned r → g.isFPinned r) (hworld : m.SameWorld m')
    (hmem : ∀ s', s' ≠ s → m'.slots[s']? = m.slots[s']?)
    (hreg : ∀ s' r, s' ≠ s → f.regs.binding r = .data s' ∨ f.regs.binding r = .tag s' →
      m'.reg r = m.reg r)
    (hfreg : ∀ s' r, s' ≠ s → f.regs.fbinding r = .data s' → m'.freg r = m.freg r)
    (howns : e.Owns m' s (env s)) :
    f₀.Loads dead m₀ env { f.setEntry s e with regs := g, generation := n } m' := by
  have h := h₀.tracks
  obtain ⟨hrole, htype, htypes, hinit⟩ := hfacts
  have hs : s < f.entries.size := Nat.lt_of_lt_of_le hl.1 h.sound.sp_le
  have hent : ∀ s', ({ f.setEntry s e with regs := g, generation := n } : Frame).entry s' =
      if s = s' then e else f.entry s' := by
    intro s'
    have heq := entry_setEntry f s s' e
    simp only [hs, and_true] at heq
    exact heq
  have hself := hent s
  rw [if_pos rfl] at hself
  refine ⟨?_, h₀.view.trans ⟨rfl, rfl, rfl, rfl, rfl, rfl, ?_, ?_, ?_, ?_⟩, ?_⟩
  · refine h.relocate hl hown rfl (size_setEntry f e s) ?_ ?_ ?_ ?_ hworld.size hmem hreg hfreg ?_
    · rw [hself, hrole]
    · rw [hself, htype]
    · intro s' hne
      rw [hent, if_neg (Ne.symm hne)]
    · rw [hself]
      exact hregs
    · rw [hself]
      exact howns
  · intro s'
    rw [hent]
    split
    · next heq => rw [← heq, hrole, hown]
    · rfl
  · intro s'
    rw [hent]
    split
    · next heq => rw [← heq, htype]
    · rfl
  · intro s'
    rw [hent]
    split
    · next heq => rw [← heq, htypes]
    · rfl
  · intro s'
    rw [hent]
    split
    · next heq => rw [← heq, hinit]
    · rfl
  · obtain ⟨k₁, k₂, k₃, k₄, k₅, k₆, k₇⟩ := h₀.keeps
    exact ⟨fun r hr => (hheld r hr).1.trans (k₁ r hr), fun r hr => (hheld r hr).2.trans (k₂ r hr),
      fun r hr => hpinned r (k₃ r hr), fun r hr => (hfheld r hr).1.trans (k₄ r hr),
      fun r hr => (hfheld r hr).2.trans (k₅ r hr), fun r hr => hfpinned r (k₆ r hr),
      k₇.trans hworld⟩

end Frame

end FastPath
