import FastPath.Proofs.Meaning.Calls
import FastPath.Proofs.Frame.Types

/-!
# Emitters and the values they work on

Between two instructions of an emitter the machine carries the values of the frame and a heap,
and some registers of the emitter's own have contents that it relies on. The values do not
change while one operation is compiled, so what a guard finds out is a fact about them, and what
a register holds is a word computed from them: `Holdings` says which registers the emitter has
and what is in them, and `Frame.Works` puts values, facts and registers together.

There is one rule for each kind of step. A tracker operation that loads something keeps what is
known; an instruction gives a temporary new contents; a guard splits the facts in two. Registers
are loaded first, since that may change the frame, and a guard that waits for the slow path
leaves with the frame of its time: in a scene that is `Scene.Loading` no guard waits, in one that
is `Scene.Armed` the frame stays.
-/

namespace FastPath

open FrameM Frame

/-- Cells that encode a value in the way in which values are written. -/
@[reducible] def Cell.written : Cell.Discipline :=
  ⟨fun c => ∃ v : Value, c = v.toCell, fun v => ⟨v, rfl⟩⟩

attribute [local instance] Cell.written

theorem Cell.eq_toCell {c : Cell} {v : Value} (h : c.Reads v) : c = v.toCell := by
  obtain ⟨hdecode, u, rfl⟩ := h
  rw [Cell.decode_toCell] at hdecode
  cases hdecode
  rfl

/-- The values of the slots of a frame, and the heap. -/
structure Store where
  env : Slot → Value
  heap : Heap

/-- Another value in a slot, and another heap. -/
def Store.put (σ : Store) (s : Slot) (v : Value) (h : Heap) : Store := ⟨assign σ.env s v, h⟩

/-! ### Registers -/

/-- The registers that an emitter has, and what it knows to be in them. A double register is
known by the number that it holds; if the value is no number, it holds anything. -/
structure Holdings where
  reg : Reg → Option UInt64
  freg : FReg → Option Value
  temp : Reg → Prop
  ftemp : FReg → Prop

namespace Holdings

/-- No register. -/
def none : Holdings := ⟨fun _ => .none, fun _ => .none, fun _ => False, fun _ => False⟩

/-- Another temporary. -/
def take (K : Holdings) (r : Reg) : Holdings := { K with temp := fun q => q = r ∨ K.temp q }

/-- Another double temporary. -/
def ftake (K : Holdings) (x : FReg) : Holdings := { K with ftemp := fun y => y = x ∨ K.ftemp y }

/-- New contents of a register. -/
def put (K : Holdings) (r : Reg) (w : UInt64) : Holdings :=
  { K with reg := fun q => if q = r then some w else K.reg q }

/-- New contents of a double register. -/
def fput (K : Holdings) (x : FReg) (v : Value) : Holdings :=
  { K with freg := fun y => if y = x then some v else K.freg y }

section

variable (K : Holdings) (r q : Reg) (x y : FReg) (w : UInt64) (v : Value)

@[simp] theorem reg_none : none.reg r = .none := rfl

@[simp] theorem freg_none : none.freg x = .none := rfl

@[simp] theorem reg_take : (K.take r).reg = K.reg := rfl

@[simp] theorem freg_take : (K.take r).freg = K.freg := rfl

@[simp] theorem temp_take : (K.take r).temp q ↔ q = r ∨ K.temp q := .rfl

@[simp] theorem ftemp_take : (K.take r).ftemp = K.ftemp := rfl

@[simp] theorem reg_ftake : (K.ftake x).reg = K.reg := rfl

@[simp] theorem freg_ftake : (K.ftake x).freg = K.freg := rfl

@[simp] theorem temp_ftake : (K.ftake x).temp = K.temp := rfl

@[simp] theorem ftemp_ftake : (K.ftake x).ftemp y ↔ y = x ∨ K.ftemp y := .rfl

@[simp] theorem reg_put : (K.put r w).reg q = if q = r then some w else K.reg q := rfl

@[simp] theorem freg_put : (K.put r w).freg = K.freg := rfl

@[simp] theorem temp_put : (K.put r w).temp = K.temp := rfl

@[simp] theorem ftemp_put : (K.put r w).ftemp = K.ftemp := rfl

@[simp] theorem reg_fput : (K.fput x v).reg = K.reg := rfl

@[simp] theorem freg_fput : (K.fput x v).freg y = if y = x then some v else K.freg y := rfl

@[simp] theorem temp_fput : (K.fput x v).temp = K.temp := rfl

@[simp] theorem ftemp_fput : (K.fput x v).ftemp = K.ftemp := rfl

end

/-- The machine has what is known to be in the registers. -/
structure Shown (K : Holdings) (m : Machine) : Prop where
  reg : ∀ r w, K.reg r = some w → m.reg r = some w
  freg : ∀ x v, K.freg x = some v →
    ∃ d, m.freg x = some d ∧ (v.isNumber → (Value.double d).same v)

variable {K : Holdings} {m m' : Machine} {r : Reg} {x : FReg} {w : UInt64} {v : Value} {d : Double}

theorem shown_none (m : Machine) : none.Shown m := ⟨nofun, nofun⟩

theorem Shown.put (h : K.Shown m) (hr : m.reg r = some w) : (K.put r w).Shown m where
  reg q u hq := by
    rw [reg_put] at hq
    split at hq
    · next heq => rw [heq, hr, ← hq]
    · exact h.reg q u hq
  freg := h.freg

theorem Shown.fput (h : K.Shown m) (hx : m.freg x = some d)
    (hd : v.isNumber → (Value.double d).same v) : (K.fput x v).Shown m where
  reg := h.reg
  freg y u hy := by
    rw [freg_fput] at hy
    split at hy
    · next heq =>
      obtain rfl := Option.some.inj hy
      exact ⟨d, heq ▸ hx, hd⟩
    · exact h.freg y u hy

theorem Shown.setReg (h : K.Shown m) (hr : r.index < Reg.count) (w : UInt64) :
    (K.put r w).Shown (m.setReg r w) where
  reg q u hq := by
    rw [reg_put] at hq
    split at hq
    · next heq =>
      subst heq
      simpa [hr] using hq
    · next hne => simpa [Ne.symm hne] using h.reg q u hq
  freg := h.freg

theorem Shown.setFReg (h : K.Shown m) (hx : x.index < FReg.count)
    (hd : v.isNumber → (Value.double d).same v) : (K.fput x v).Shown (m.setFReg x d) where
  reg := h.reg
  freg y u hy := by
    rw [freg_fput] at hy
    split at hy
    · next heq =>
      obtain rfl := Option.some.inj hy
      exact ⟨d, by simp [heq, hx], hd⟩
    · next hne =>
      obtain ⟨e, he, hsame⟩ := h.freg y u hy
      exact ⟨e, by simpa [Ne.symm hne] using he, hsame⟩

theorem Shown.congr (h : K.Shown m) (hreg : ∀ r, K.reg r ≠ .none → m'.reg r = m.reg r)
    (hfreg : ∀ x, K.freg x ≠ .none → m'.freg x = m.freg x) : K.Shown m' where
  reg r w hr := (hreg r (by simp [hr])).trans (h.reg r w hr)
  freg x v hx := by
    obtain ⟨d, hd, hsame⟩ := h.freg x v hx
    exact ⟨d, (hfreg x (by simp [hx])).trans hd, hsame⟩

/-- A register that is none of those that the emitter has. -/
def Fresh (K : Holdings) (r : Reg) : Prop := K.reg r = .none ∧ ¬K.temp r

/-- A double register that is none of those that the emitter has. -/
def FFresh (K : Holdings) (x : FReg) : Prop := K.freg x = .none ∧ ¬K.ftemp x

/-- What is in other registers is not affected by a fresh one. -/
theorem Fresh.reg_put {q : Reg} {u : UInt64} (h : K.Fresh q) (hr : K.reg r = some w) :
    ((K.take q).put q u).reg r = some w := by
  rw [Holdings.reg_put, if_neg, reg_take, hr]
  rintro rfl
  cases h.1.symm.trans hr

theorem FFresh.freg_fput {y : FReg} {u : Value} (h : K.FFresh y) (hx : K.freg x = some v) :
    ((K.ftake y).fput y u).freg x = some v := by
  rw [Holdings.freg_fput, if_neg, freg_ftake, hx]
  rintro rfl
  cases h.1.symm.trans hx

/-- The word of an operand that is in a register or immediate. -/
def operand? (K : Holdings) : Operand → Option UInt64
  | .reg r => K.reg r
  | .imm n => some n.toUInt64
  | .tag _ | .payload _ => .none

@[simp] theorem operand?_reg (K : Holdings) (r : Reg) : K.operand? (.reg r) = K.reg r := rfl

@[simp] theorem operand?_imm (K : Holdings) (n : Int64) :
    K.operand? (.imm n) = some n.toUInt64 := rfl

theorem Shown.operand {o : Operand} (h : K.Shown m) (ho : K.operand? o = some w) :
    m.operand? o = some w := by
  cases o with
  | reg r => exact h.reg r w ho
  | imm n => exact ho
  | tag s | payload s => cases ho

end Holdings

namespace Frame

/-! ### Frames and machines -/

/-- The machine holds the values of the store, and has memory for `N` slots and more. -/
structure Carries (f : Frame) (N : Nat) (σ : Store) (m : Machine) : Prop where
  tracks : f.Tracks none m σ.env
  heap : m.heap = σ.heap
  room : N < m.slots.size

/-- The frame is sound and holds the registers. -/
structure Holding (f : Frame) (K : Holdings) : Prop where
  sound : f.Sound none
  reg : ∀ r, K.reg r ≠ none → f.regs.Held r
  freg : ∀ x, K.freg x ≠ none → f.regs.FHeld x
  temp : ∀ r, K.temp r → f.regs.binding r = .temp
  ftemp : ∀ x, K.ftemp x → f.regs.fbinding x = .temp

/-- An emitter at work: some facts about the values are known, the machine carries them, and
registers have their contents. -/
structure Works (f : Frame) (N : Nat) (σ : Store) (K : Holdings) (H : Prop)
    (m : Machine) : Prop where
  facts : H
  carries : f.Carries N σ m
  shown : K.Shown m

/-- What the frame knows is true of the values. -/
structure Agrees (f : Frame) (σ : Store) : Prop where
  type : ∀ s < f.sp, (f.knownType s).Describes (σ.env s)
  constant : ∀ s < f.sp, ∀ v, f.constant? s = some v → σ.env s = v
  backing : ∀ s < f.sp, σ.env s = σ.env (f.backing s)

/-- No slot has a register. -/
def Bare (f : Frame) : Prop := ∀ s < f.sp, (f.entry s).data = .memory ∧ (f.entry s).tag = none

variable {f f' : Frame} {N : Nat} {σ : Store} {K : Holdings} {H H' : Prop} {m m' : Machine}
  {r : Reg} {x : FReg} {w : UInt64} {v : Value} {d : Double}

theorem Carries.agrees (h : f.Carries N σ m) : f.Agrees σ where
  type _ hs := h.tracks.describes_knownType (live_of_lt hs)
  constant _ hs _ hv := (h.tracks.constant? (live_of_lt hs) hv).1
  backing _ hs := (h.tracks.backing (live_of_lt hs)).2.1

theorem Carries.works (h : f.Carries N σ m) : f.Works N σ .none True m :=
  ⟨trivial, h, Holdings.shown_none m⟩

theorem Works.imp (h : f.Works N σ K H m) (hH : H → H') : f.Works N σ K H' m :=
  ⟨hH h.facts, h.carries, h.shown⟩

theorem Works.and (h : f.Works N σ K H m) (hH : H') : f.Works N σ K (H ∧ H') m :=
  ⟨⟨h.facts, hH⟩, h.carries, h.shown⟩

/-- There is a machine that a sound frame describes. -/
theorem Sound.exists_tracks (hs : f.Sound none) : ∃ m env, f.Tracks none m env :=
  ⟨_, _, hs.tracks_sample (k := .int32) (Nat.le_refl _)⟩

variable {s : Slot} {env : Slot → Value}

theorem Sound.live_backing (h : f.Sound none) (hs : s < f.sp) : f.Live none (f.backing s) := by
  obtain ⟨m, env, htr⟩ := h.exists_tracks
  exact (htr.backing (live_of_lt hs)).1

theorem holding_none (hs : f.Sound none) : f.Holding .none :=
  ⟨hs, fun _ h => absurd rfl h, fun _ h => absurd rfl h, nofun, nofun⟩

theorem Holding.take (h : f.Holding K) (hr : f.regs.binding r = .temp) : f.Holding (K.take r) :=
  { h with temp := fun q hq => hq.elim (fun heq => heq ▸ hr) (h.temp q) }

theorem Holding.ftake (h : f.Holding K) (hx : f.regs.fbinding x = .temp) : f.Holding (K.ftake x) :=
  { h with ftemp := fun y hy => hy.elim (fun heq => heq ▸ hx) (h.ftemp y) }

theorem Holding.put (h : f.Holding K) (hr : f.regs.Held r) (w : UInt64) : f.Holding (K.put r w) :=
  { h with
    reg := fun q hq => by
      rw [Holdings.reg_put] at hq
      split at hq
      · next heq => exact heq ▸ hr
      · exact h.reg q hq }

theorem Holding.fput (h : f.Holding K) (hx : f.regs.FHeld x) (v : Value) : f.Holding (K.fput x v) :=
  { h with
    freg := fun y hy => by
      rw [Holdings.freg_fput] at hy
      split at hy
      · next heq => exact heq ▸ hx
      · exact h.freg y hy }

/-- A register that is not held is none of those that the emitter has. -/
theorem Holding.fresh (h : f.Holding K) (hr : ¬f.regs.Held r) : K.Fresh r :=
  ⟨Classical.byContradiction fun hne => hr (h.reg r hne), fun ht => hr (.inl (h.temp r ht))⟩

theorem Holding.ffresh (h : f.Holding K) (hx : ¬f.regs.FHeld x) : K.FFresh x :=
  ⟨Classical.byContradiction fun hne => hx (h.freg x hne), fun ht => hx (.inl (h.ftemp x ht))⟩

theorem Holding.loads (h : f.Holding K) (hl : f.Loads none m env f' m') :
    f'.Holding K where
  sound := hl.tracks.sound
  reg r hr := hl.keeps.held (h.reg r hr)
  freg x hx := hl.keeps.fheld (h.freg x hx)
  temp r hr := (hl.keeps.binding r (.inl (h.temp r hr))).trans (h.temp r hr)
  ftemp x hx := (hl.keeps.fbinding x (.inl (h.ftemp x hx))).trans (h.ftemp x hx)

theorem Works.loads (h : f.Works N σ K H m) (hk : f.Holding K)
    (hl : f.Loads none m σ.env f' m') : f'.Works N σ K H m' where
  facts := h.facts
  carries :=
    ⟨hl.tracks, hl.keeps.world.heap.trans h.carries.heap, hl.keeps.world.size ▸ h.carries.room⟩
  shown := h.shown.congr (fun r hr => hl.keeps.contents r (hk.reg r hr))
    fun x hx => hl.keeps.fcontents x (hk.freg x hx)

theorem lt_count_of_temp (h : f.regs.binding r = .temp) : r.index < Reg.count :=
  Bank.lt_of_binding_ne_free (b := f.regs.regs) fun hfree => by cases h.symm.trans hfree

theorem Carries.setReg (h : f.Carries N σ m) (hr : (f.regs.binding r).slot? = none) (w : UInt64) :
    f.Carries N σ (m.setReg r w) :=
  ⟨h.tracks.setReg w hr, h.heap, h.room⟩

theorem Carries.setFReg (h : f.Carries N σ m) (hx : (f.regs.fbinding x).slot? = none) (d : Double) :
    f.Carries N σ (m.setFReg x d) :=
  ⟨h.tracks.setFReg d hx, h.heap, h.room⟩

theorem fbinding_scratch (f : Frame) : f.regs.fbinding .scratch = .free := by
  have hnone : f.regs.fregs[FReg.scratch.index]? = none :=
    Vector.getElem?_eq_none_iff.2 (by decide)
  simp [RegisterFile.fbinding, Bank.binding, hnone]

/-- No value is in a double register, so it may be written. -/
def Spare (f : Frame) (x : FReg) : Prop :=
  (f.regs.fbinding x).slot? = none ∧ x.index < FReg.count

theorem Holding.spare (h : f.Holding K) (hx : K.ftemp x) : f.Spare x := by
  refine ⟨?_, lt_count_of_ftemp (h.ftemp x hx)⟩
  rw [h.ftemp x hx]
  rfl

theorem spare_scratch (f : Frame) : f.Spare .scratch := by
  refine ⟨?_, by decide⟩
  rw [fbinding_scratch]
  rfl

/-- The payload of a slot that is not known as a number only. -/
theorem Represents.payload {c : Cell} (h : f.Represents env s c) (ht : f.knownType s ≠ .double) :
    c = (env s).toCell := by
  obtain ⟨u, hu, hfit⟩ := h
  rw [Cell.eq_toCell hu, hfit.eq ht]

/-- The register that a slot has its payload in. -/
theorem Carries.reg_of_data (h : f.Carries N σ m) (hs : s < f.sp) (ht : f.knownType s ≠ .double)
    (hown : (f.entry (f.backing s)).role = .own) (hr : (f.entry (f.backing s)).data = .reg r) :
    m.reg r = some (σ.env s).payload := by
  obtain ⟨c, hw, hc⟩ := h.tracks.represents_words (live_of_lt hs)
    (by simp [Entry.constant?, hown]) (by simp [hr])
  rw [hw.payload_reg hr, hc.payload ht]
  rfl

end Frame

namespace Scene

variable {E : Placement} {k : Cursor} {S S' : Scene} {σ : Store} {f : Frame}
  {K : Holdings} {H : Prop}

/-- Registers are being loaded. The frame is `f`, apart from registers. -/
structure Loading (S : Scene) (E : Placement) (σ : Store) (f : Frame) (K : Holdings) (H : Prop)
    (k : Cursor) : Prop where
  view : f.SameView k.frame
  holding : k.frame.Holding K
  within : S.Within (.start (k.frame.Works E.room σ K H))

/-- Registers have been loaded, and guards may wait. -/
structure Armed (S : Scene) (E : Placement) (σ : Store) (f : Frame) (K : Holdings) (H : Prop)
    (k : Cursor) : Prop where
  view : f.SameView k.frame
  holding : k.frame.Holding K
  within : S.Within
    { start (k.frame.Works E.room σ K H) with exit := k.frame.Carries E.room σ }

theorem loading_start (hs : k.frame.Sound none) :
    (start (k.frame.Carries E.room σ)).Loading E σ k.frame .none True k where
  view := .refl _
  holding := holding_none hs
  within := { Within.refl _ with fast := fun _ hm => hm.works }

theorem Loading.armed (h : S.Loading E σ f K H k) : S.Armed E σ f K H k where
  __ := h
  within := h.within.trans { Within.refl _ with exit := fun _ hm => hm.elim }

variable {H' : Prop}

/-- What every machine here shows may be noted. -/
theorem Loading.note (h : S.Loading E σ f K H k) (hH : ∀ m, k.frame.Works E.room σ K H m → H') :
    S.Loading E σ f K (H ∧ H') k :=
  ⟨h.view, h.holding, h.within.trans (within_of_fast (fun m hw => hw.and (hH m hw)) fun _ _ => id)⟩

theorem Armed.imp (h : S.Armed E σ f K H k) (hH : H → H') : S.Armed E σ f K H' k :=
  ⟨h.view, h.holding, h.within.trans { Within.refl _ with fast := fun _ hm => hm.imp hH }⟩

theorem Loading.lt {s : Slot} (h : S.Loading E σ f K H k) (hs : s < f.sp) : s < k.frame.sp :=
  h.view.sp ▸ hs

theorem Armed.lt {s : Slot} (h : S.Armed E σ f K H k) (hs : s < f.sp) : s < k.frame.sp :=
  h.view.sp ▸ hs

end Scene

namespace AsmM

variable {α β : Type} {E : Placement} {k : Cursor} {S : Scene} {σ : Store} {f : Frame}
  {K : Holdings} {H : Prop} {s : Slot}

/-! ### Tracker operations -/

/-- A tracker operation that only moves values. What is said about the new frame is known from
any one machine. -/
theorem load_emits {x : FrameM α} {P : α → Frame → Prop}
    {Y : (Slot → Value) → α → Machine → Prop} {L : α → Holdings}
    (h : S.Loading E σ f K H k)
    (hx : ∀ m env, k.frame.Tracks none m env → Ensures x k.frame m fun r f' m' =>
      k.frame.Loads none m env f' m' ∧ P r f' ∧ Y env r m')
    (hholding : ∀ r f', f'.Holding K → P r f' → f'.Holding (L r))
    (hK : ∀ r f' m, P r f' → f'.Works E.room σ K H m → Y σ.env r m → (L r).Shown m) :
    Emits E (liftM x) k S fun r k' S' => S'.Loading E σ f (L r) H k' ∧ P r k'.frame := by
  refine Emits.weaken (emits_lift
    (P := fun r f' => k.frame.SameView f' ∧ f'.Holding K ∧ P r f')
    (F := fun r f' => f'.Works E.room σ (L r) H) ?_ ?_ ?_ ?_) h.within
  · obtain ⟨m, env, htr⟩ := h.holding.sound.exists_tracks
    refine ⟨m, (hx m env htr).mono ?_⟩
    rintro r f' m' ⟨hl, hp, -⟩
    exact ⟨hl.view, h.holding.loads hl, hp⟩
  · rintro r f' ⟨hview, -⟩
    exact Nat.le_of_eq hview.maxSp.symm
  · rintro - - - - m hw
    refine (hx m σ.env hw.carries.tracks).mono ?_
    rintro r f' m' ⟨hl, hp, hy⟩
    have hw' := hw.loads h.holding hl
    exact ⟨hw'.facts, hw'.carries, hK r f' m' hp hw' hy⟩
  · rintro r f' l ⟨hview, hk, hp⟩
    exact ⟨⟨h.view.trans hview, hholding r f' hk hp, .refl _⟩, hp⟩

/-- A temporary is handed out. -/
theorem alloc_emits (h : S.Loading E σ f K H k) : Emits E (liftM alloc) k S
    fun r k' S' => S'.Loading E σ f (K.take r) H k' ∧ K.Fresh r := by
  refine (load_emits (P := fun r f' => f'.regs.binding r = .temp ∧ ¬k.frame.regs.Held r)
    (Y := fun _ _ _ => True) (L := K.take) h ?_ (fun _ _ hk hp => hk.take hp.1) ?_).mono ?_
  · intro m env htr
    refine (alloc_ensures htr).mono ?_
    rintro r f' m' ⟨hl, -, ht, hheld⟩
    exact ⟨hl, ⟨ht, hheld⟩, trivial⟩
  · rintro r f' m - hw -
    exact ⟨hw.shown.reg, hw.shown.freg⟩
  · rintro r k' S' ⟨h', -, hheld⟩
    exact ⟨h', h.holding.fresh hheld⟩

/-- A double temporary is handed out. -/
theorem allocDouble_emits (h : S.Loading E σ f K H k) : Emits E (liftM allocDouble) k S
    fun x k' S' => S'.Loading E σ f (K.ftake x) H k' ∧ K.FFresh x := by
  refine (load_emits (P := fun x f' => f'.regs.fbinding x = .temp ∧ ¬k.frame.regs.FHeld x)
    (Y := fun _ _ _ => True) (L := K.ftake) h ?_ (fun _ _ hk hp => hk.ftake hp.1) ?_).mono ?_
  · intro m env htr
    refine (allocDouble_ensures htr).mono ?_
    rintro x f' m' ⟨hl, -, ht, hheld⟩
    exact ⟨hl, ⟨ht, hheld⟩, trivial⟩
  · rintro x f' m - hw -
    exact ⟨hw.shown.reg, hw.shown.freg⟩
  · rintro x k' S' ⟨h', -, hheld⟩
    exact ⟨h', h.holding.ffresh hheld⟩

variable {w : UInt64} {r : Reg} {Q : Unit → Cursor → Scene → Prop} {i : Inst} {v : Value}
  {g : Guard}

/-- A temporary that is handed out with contents. -/
theorem handOut_emits {x : FrameM Reg} {P : (Slot → Value) → UInt64 → Prop}
    (h : S.Loading E σ f K H k) (hx : ∀ m env, k.frame.Tracks none m env →
      Ensures x k.frame m (HandsOut k.frame none m env (P env)))
    (hw : ∀ u, P σ.env u → u = w) : Emits E (liftM x) k S
      fun r k' S' => S'.Loading E σ f ((K.take r).put r w) H k' ∧ K.Fresh r := by
  refine (load_emits (P := fun r f' => f'.regs.binding r = .temp ∧ ¬k.frame.regs.Held r)
    (Y := fun env r m => ∃ u, m.reg r = some u ∧ P env u) (L := fun r => (K.take r).put r w)
    h ?_ (fun _ _ hk hp => (hk.take hp.1).put (.inl hp.1) w) ?_).mono ?_
  · intro m env htr
    refine (hx m env htr).mono ?_
    rintro r f' m' ⟨hl, ht, hheld, hcontents⟩
    exact ⟨hl, ⟨ht, hheld⟩, hcontents⟩
  · rintro r f' m - hworks ⟨u, hu, hp⟩
    obtain rfl := hw u hp
    exact .put ⟨hworks.shown.reg, hworks.shown.freg⟩ hu
  · rintro r k' S' ⟨h', -, hheld⟩
    exact ⟨h', h.holding.fresh hheld⟩

/-- A temporary with the payload of a slot. -/
theorem copyData_emits (h : S.Loading E σ f K H k) (hs : s < f.sp) (ht : f.knownType s ≠ .double) :
    Emits E (liftM (copyData s)) k S fun r k' S' =>
      S'.Loading E σ f ((K.take r).put r (σ.env s).payload) H k' ∧ K.Fresh r := by
  refine handOut_emits h (fun _ _ htr => copyData_ensures htr (live_of_lt (h.lt hs)))
    ?_
  rintro u ⟨c, hc, rfl⟩
  rw [hc.payload (h.view.knownType s ▸ ht)]
  rfl

/-- A temporary with an immediate word. -/
theorem loadTemp_emits {n : Int64} (h : S.Loading E σ f K H k) :
    Emits E (liftM (loadTemp (.imm n))) k S fun r k' S' =>
      S'.Loading E σ f ((K.take r).put r n.toUInt64) H k' ∧ K.Fresh r :=
  handOut_emits (P := fun _ u => u = n.toUInt64) h
    (fun _ _ htr => loadTemp_ensures htr fun _ _ _ _ => ⟨_, rfl, rfl⟩) fun _ => id

/-- A double temporary with the number in a slot. -/
theorem copyNumber_emits (h : S.Loading E σ f K H k) (hs : s < f.sp) :
    Emits E (liftM (copyNumber s)) k S fun x k' S' =>
      S'.Loading E σ f ((K.ftake x).fput x (σ.env s)) H k' ∧ K.FFresh x := by
  refine (load_emits (P := fun x f' => f'.regs.fbinding x = .temp ∧ ¬k.frame.regs.FHeld x)
    (Y := fun env x m => ∃ d, m.freg x = some d ∧
      ((env s).isNumber → (Value.double d).same (env s)))
    (L := fun x => (K.ftake x).fput x (σ.env s)) h ?_
    (fun _ _ hk hp => (hk.ftake hp.1).fput (.inl hp.1) _) ?_).mono ?_
  · intro m env htr
    refine (copyNumber_ensures htr (live_of_lt (h.lt hs))).mono ?_
    rintro x f' m' ⟨hl, ht, hheld, hcontents⟩
    exact ⟨hl, ⟨ht, hheld⟩, hcontents⟩
  · rintro x f' m - hw ⟨d, hd, hsame⟩
    exact .fput ⟨hw.shown.reg, hw.shown.freg⟩ hd hsame
  · rintro x k' S' ⟨h', -, hheld⟩
    exact ⟨h', h.holding.ffresh hheld⟩

/-- The register bound to the payload of a slot. -/
theorem dataReg_emits (h : S.Loading E σ f K H k) (hs : s < f.sp) :
    Emits E (liftM (dataReg s)) k S fun r k' S' => S'.Loading E σ f K H k' ∧
      (k'.frame.entry (k'.frame.backing s)).role = .own ∧
      (k'.frame.entry (k'.frame.backing s)).data = .reg r := by
  refine load_emits (P := fun r f' => (f'.entry (f'.backing s)).role = .own ∧
      (f'.entry (f'.backing s)).data = .reg r) (Y := fun _ _ _ => True) (L := fun _ => K)
    h ?_ (fun _ _ hk _ => hk) fun _ _ _ _ hw _ => hw.shown
  intro m env htr
  refine (dataReg_ensures htr (live_of_lt (h.lt hs))).mono ?_
  rintro r f' m' ⟨hl, hown, hdata⟩
  rw [hl.view.backing, hl.view.role]
  exact ⟨hl, ⟨hown, hdata⟩, trivial⟩

theorem pin_ensures {m : Machine} {env : Slot → Value} (h : f.Tracks none m env)
    (r : Reg) : Ensures (CompileM.pin r) f m fun _ f' m' => f.Loads none m env f' m' ∧
      f' = f.mapRegs (·.setPinned r true) := by
  unfold CompileM.pin pin
  refine ensures_bind (ensures_bind (ensures_frame (ensures_bind
    (ensures_updateRegs (ensures_pure ?_)))))
  split <;> exact ensures_pure ⟨loads_pin h r, rfl⟩

/-- Keeping a bound register from being evicted. -/
theorem pin_emits (h : S.Loading E σ f K H k) (hr : k.frame.regs.binding r ≠ .free)
    (hw : ∀ m, k.frame.Carries E.room σ m → m.reg r = some w) :
    Emits E (liftM (CompileM.pin r)) k S fun _ k' S' => S'.Loading E σ f (K.put r w) H k' := by
  have hlt : r.index < Reg.count := Bank.lt_of_binding_ne_free (b := k.frame.regs.regs) hr
  refine (load_emits (P := fun _ f' => f' = k.frame.mapRegs (·.setPinned r true))
    (Y := fun _ _ _ => True) (L := fun _ => K.put r w) h ?_ ?_ ?_).mono fun _ _ _ h' => h'.1
  · intro m env htr
    refine (pin_ensures htr r).mono ?_
    rintro pins f' m' ⟨hl, rfl⟩
    exact ⟨hl, rfl, trivial⟩
  · rintro pins f' hk rfl
    exact hk.put (.inr (by simp [hlt])) w
  · rintro pins f' m rfl hworks -
    refine hworks.shown.put (hw m ⟨?_, hworks.carries.heap, hworks.carries.room⟩)
    exact hworks.carries.tracks.of_regs (g := k.frame.regs) (fun _ => .inl (by simp))
      fun _ => .inl (by simp)

/-- Keeping the register of a payload. -/
theorem pinData_emits (h : S.Loading E σ f K H k) (hs : s < f.sp) (ht : f.knownType s ≠ .double)
    (hown : (k.frame.entry (k.frame.backing s)).role = .own)
    (hdata : (k.frame.entry (k.frame.backing s)).data = .reg r) :
    Emits E (liftM (CompileM.pin r)) k S fun _ k' S' =>
      S'.Loading E σ f (K.put r (σ.env s).payload) H k' := by
  have hb := (h.holding.sound.data_iff _ r).2 ⟨h.holding.sound.live_backing (h.lt hs), hdata⟩
  exact pin_emits h (by rw [hb]; nofun) fun m hm =>
    hm.reg_of_data (h.lt hs) (h.view.knownType s ▸ ht) hown hdata

/-- Where the tag of a slot can be read. -/
theorem emits_tagOperand {s : Slot} {Q : Operand → Cursor → Scene → Prop}
    (h : ∀ l, k.frame.knownType s = .unknown → Q (k.frame.tagPlace s) { k with fast := l } S) :
    Emits E (monadLift (tagOperand s)) k S Q := by
  refine emits_lift (P := fun o f' => f' = k.frame ∧ k.frame.knownType s = .unknown ∧
    o = k.frame.tagPlace s) (F := fun _ _ => S.fast) ⟨default, ?_⟩ ?_ ?_ ?_
  · refine tagOperand_eq.mono ?_
    rintro o f' m' ⟨rfl, -, ht, rfl⟩
    exact ⟨rfl, ht, rfl⟩
  · rintro o f' ⟨rfl, -⟩
    exact Nat.le_refl _
  · rintro o f' - - m hm
    refine tagOperand_eq.mono ?_
    rintro o f' m' ⟨-, rfl, -⟩
    exact hm
  · rintro o f' l ⟨rfl, ht, rfl⟩
    exact h l ht

/-- Storing every slot and dropping every register. -/
theorem emits_syncAndKill (hs : k.frame.Sound none)
    (hfast : ∀ m, S.fast m → k.frame.Carries E.room σ m)
    (h : ∀ f' l, k.frame.SameView f' → f'.Sound none → f'.Synced → f'.Bare →
      Q () ⟨f', l, k.slow⟩ { S with fast := f'.Carries E.room σ }) :
    Emits E (monadLift syncAndKill) k S Q := by
  have hentry : ∀ f' : Frame, f' = (k.frame.mapLive Entry.synced).killed → ∀ s < f'.sp,
      f'.entry s = (k.frame.entry s).synced.withoutRegs := by
    rintro f' rfl s hlt
    have hle : (k.frame.mapLive Entry.synced).sp ≤ (k.frame.mapLive Entry.synced).entries.size := by
      simpa [mapLive] using hs.sp_le
    replace hlt : s < (k.frame.mapLive Entry.synced).sp := hlt
    have hlt' : s < k.frame.sp := hlt
    rw [entry_killed hle, if_pos hlt, entry_mapLive k.frame _ s hs.sp_le, if_pos hlt']
  refine emits_lift (P := fun _ f' => k.frame.SameView f' ∧ f'.Sound none ∧ f'.Synced ∧ f'.Bare)
    (F := fun _ f' => f'.Carries E.room σ) ?_ ?_ ?_ ?_
  · obtain ⟨m, env, htr⟩ := hs.exists_tracks
    refine ⟨m, (syncAndKill_ensures htr).mono ?_⟩
    rintro - f' m' ⟨ht, hview, -, -, heq⟩
    refine ⟨hview, ht.sound, fun s hlt => ?_, fun s hlt => ?_⟩ <;> rw [hentry f' heq s hlt]
    · rfl
    · exact ⟨rfl, rfl⟩
  · rintro - f' ⟨hview, -⟩
    exact Nat.le_of_eq hview.maxSp.symm
  · rintro - - - - m hm
    have hc := hfast m hm
    refine (syncAndKill_ensures hc.tracks).mono ?_
    rintro - f' m' ⟨ht, -, honly, -, -⟩
    exact ⟨ht, honly.world.heap.trans hc.heap, honly.world.size ▸ hc.room⟩
  · rintro - f' l ⟨hview, hsound, hsync, hbare⟩
    exact h f' l hview hsound hsync hbare

/-! ### Instructions -/

/-- An instruction that writes a temporary. -/
theorem emits_set {s : Stream} (hends : ∀ m, S.ends s m → k.frame.Works E.room σ K H m)
    (hi : i.target? = none) (htemp : k.frame.regs.binding r = .temp)
    (hx : r.index < Reg.count → ∀ m, k.frame.Works E.room σ K H m → Executes i m (m.setReg r w))
    (h : Q () (k.next s) (S.withEnd s (k.frame.Works E.room σ (K.put r w) H))) :
    Emits E (emit s i) k S Q := by
  refine emits_emit hi (fun m hm => ?_) h
  have hw := hends m hm
  refine ⟨_, hx (lt_count_of_temp htemp) m hw, hw.facts,
    hw.carries.setReg (by rw [htemp]; rfl) w, ?_⟩
  exact hw.shown.setReg (lt_count_of_temp htemp) w

/-- An instruction that writes a double temporary. -/
theorem emits_setF {s : Stream} {x : FReg} (hends : ∀ m, S.ends s m → k.frame.Works E.room σ K H m)
    (hi : i.target? = none) (hx : k.frame.Spare x)
    (hrun : x.index < FReg.count → ∀ m, k.frame.Works E.room σ K H m →
      ∃ d, Executes i m (m.setFReg x d) ∧ (v.isNumber → (Value.double d).same v))
    (h : Q () (k.next s) (S.withEnd s (k.frame.Works E.room σ (K.fput x v) H))) :
    Emits E (emit s i) k S Q := by
  obtain ⟨hslot, hlt⟩ := hx
  refine emits_emit hi (fun m hm => ?_) h
  have hw := hends m hm
  obtain ⟨d, hd, hsame⟩ := hrun hlt m hw
  exact ⟨_, hd, hw.facts, hw.carries.setFReg hslot d, hw.shown.setFReg hlt hsame⟩

/-! ### Guards -/

/-- A guard that tests the values. -/
theorem emits_test {s : Stream} {b : Bool} {Q : Jump → Cursor → Scene → Prop}
    (hends : ∀ m, S.ends s m → k.frame.Works E.room σ K H m)
    (hg : ∀ m, k.frame.Works E.room σ K H m → g.Tests m b) (h : Q (k.ends s) (k.next s)
      { S.withEnd s (k.frame.Works E.room σ K (H ∧ b = false)) with
        jump := fun j m => (j = k.ends s ∧ k.frame.Works E.room σ K (H ∧ b = true) m) ∨
          S.jump j m }) :
    Emits E (branch s g) k S Q := by
  refine emits_branch (fun m hm => ?_) h
  have hw := hends m hm
  cases hb : b with
  | true => exact .inl ⟨(hg m hw).trips hb, hw.and rfl⟩
  | false => exact .inr ⟨m, (hg m hw).passes hb, hw.and rfl⟩

/-- A guard that converts the values. -/
theorem emits_convert {s : Stream} {o : Option Int32} {Q : Jump → Cursor → Scene → Prop}
    (hends : ∀ m, S.ends s m → k.frame.Works E.room σ K H m)
    (htemp : k.frame.regs.binding r = .temp)
    (hg : r.index < Reg.count → ∀ m, k.frame.Works E.room σ K H m → g.Converts m r o)
    (h : Q (k.ends s) (k.next s)
      { S.withEnd s (k.frame.Works E.room σ (K.put r (Value.int32 (o.getD 0)).payload)
          (H ∧ o.isSome)) with
        jump := fun j m => (j = k.ends s ∧ k.frame.Works E.room σ K (H ∧ o = none) m) ∨
          S.jump j m }) :
    Emits E (branch s g) k S Q := by
  refine emits_branch (fun m hm => ?_) h
  have hw := hends m hm
  have hconv := hg (lt_count_of_temp htemp) m hw
  cases ho : o with
  | none =>
    rw [ho] at hconv
    exact .inl ⟨hconv, hw.and rfl⟩
  | some i =>
    rw [ho] at hconv
    refine .inr ⟨_, hconv, ⟨hw.facts, rfl⟩, hw.carries.setReg (by rw [htemp]; rfl) _, ?_⟩
    exact hw.shown.setReg (lt_count_of_temp htemp) _

/-! ### Straight-line code -/

theorem set_emits (h : S.Armed E σ f K H k) (hi : i.target? = none) (hr : K.temp r)
    (hx : r.index < Reg.count → ∀ m, k.frame.Works E.room σ K H m → Executes i m (m.setReg r w)) :
    Emits E (emit .fast i) k S fun _ k' S' => S'.Armed E σ f (K.put r w) H k' := by
  refine Emits.weaken (emits_set (fun _ => id) hi (h.holding.temp r hr) hx ?_) h.within
  exact ⟨h.view, h.holding.put (.inl (h.holding.temp r hr)) w, .refl _⟩

/-- An instruction gives a double temporary new contents. -/
theorem setF_emits {x : FReg} (h : S.Armed E σ f K H k) (hi : i.target? = none) (hx : K.ftemp x)
    (hrun : x.index < FReg.count → ∀ m, k.frame.Works E.room σ K H m →
      ∃ d, Executes i m (m.setFReg x d) ∧ (v.isNumber → (Value.double d).same v)) :
    Emits E (emit .fast i) k S fun _ k' S' => S'.Armed E σ f (K.fput x v) H k' := by
  refine Emits.weaken (emits_setF (fun _ => id) hi (h.holding.spare hx) hrun ?_) h.within
  exact ⟨h.view, h.holding.fput (.inl (h.holding.ftemp x hx)) v, .refl _⟩

/-- A guard that waits for the slow path. -/
theorem check_emits {b : Bool} (h : S.Armed E σ f K H k)
    (hg : ∀ m, k.frame.Works E.room σ K H m → g.Tests m b) :
    Emits E (branch .fast g >>= linkExit) k S fun _ k' S' =>
      S'.Armed E σ f K (H ∧ b = false) k' := by
  refine Emits.weaken (emits_bind (emits_test (fun _ => id) hg ?_)) h.within
  refine emits_linkExit (X := k.frame.Carries E.room σ) (J := fun _ _ => False) ?_ (fun _ => id) ?_
  · rintro i m (⟨rfl, hm⟩ | hm)
    · exact .inl ⟨rfl, hm.carries⟩
    · cases hm
  · exact ⟨h.view, h.holding, .refl _⟩

end AsmM

end FastPath
