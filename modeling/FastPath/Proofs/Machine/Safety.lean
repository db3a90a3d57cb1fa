import FastPath.Proofs.Code.Link
import FastPath.Proofs.Machine.Shape
import FastPath.Proofs.Machine.Steps
import FastPath.Proofs.Stub.Meaning

/-!
# Code that has no structural faults

Some faults are due to the data that code works on: a heap access fails, or the run takes too
many steps. The others are structural: the code reads a register that has no contents, a slot
outside the frame, an entry that a table does not have. Whether these can happen does not
depend on data.

`Code.Shaped` says that the positions of finished code can be given shapes so that every
instruction reads only registers of its shape and leads only to positions whose shapes it
covers, and that the tables have an entry for whatever refers to them. `MachineM.Safe` takes a
shape through an action of the machine. From the rules for the actions it follows that a step
leads from shape to shape, and then that no run has a structural fault.
-/

namespace FastPath

/-- The code itself is at fault, not the data that it works on. -/
def Fault.isStructural : Fault → Bool
  | heap _ | elementOutOfRange _ _ | stepLimit _ => false
  | noEntry | offsetOutOfRange _ | invalidReg _ _ | invalidFReg _ _ | clobberedReg _ _
  | clobberedFReg _ _ | slotOutOfRange _ _ | unknownCache _ | missingSite _ | classOrdering _ _
  | noCacheResult _ _ | noCacheValue _ _ | untaggedKey _ => true

/-! ### Stubs keep the frame -/

namespace StubM

variable {α β : Type}

/-- The frame has as many slots afterwards as before. -/
def KeepsSize (x : StubM α) : Prop :=
  ∀ s, match x s with
    | .ok _ s' | .error _ s' => s'.slots.size = s.slots.size

theorem keepsSize_pure (a : α) : KeepsSize (pure a) := fun _ => rfl

theorem keepsSize_throw (e : OpError) : KeepsSize (throw e : StubM α) := fun _ => rfl

/-- One stub after the other. -/
theorem keepsSize_bind {x : StubM α} {k : α → StubM β} (hx : KeepsSize x)
    (hk : ∀ a, KeepsSize (k a)) : KeepsSize (x >>= k) := by
  intro s
  change match EStateM.bind x k s with | .ok _ s' | .error _ s' => s'.slots.size = s.slots.size
  have hs := hx s
  unfold EStateM.bind
  cases h : x s with
  | error e s₁ =>
    rw [h] at hs
    exact hs
  | ok a s₁ =>
    rw [h] at hs
    have hs₁ := hk a s₁
    change match k a s₁ with | .ok _ s' | .error _ s' => s'.slots.size = s.slots.size
    cases h₁ : k a s₁ with
    | ok b s₂ | error e s₂ =>
      rw [h₁] at hs₁
      exact hs₁.trans hs

theorem keepsSize_get {k : StubState → StubM α} (hk : ∀ s, KeepsSize (k s)) :
    KeepsSize (get >>= k) :=
  keepsSize_bind (fun _ => rfl) hk

theorem keepsSize_lift (x : HeapM α) : KeepsSize (liftM x : StubM α) := by
  intro s
  rw [lift_run]
  cases x s.heap <;> rfl

theorem keepsSize_slot (i : Nat) : KeepsSize (do
    match (← get).slots[i]? with
    | none => throw (.operandOutsideFrame i)
    | some cell =>
      match cell.decode with
      | .ok v => return v
      | .error e => throw e : StubM Value) := by
  refine keepsSize_get fun s => ?_
  split
  · exact keepsSize_throw _
  · split
    · exact keepsSize_pure _
    · exact keepsSize_throw _

theorem keepsSize_operand (c : StubCall) (depth : Nat) : KeepsSize (c.operand depth) := by
  unfold StubCall.operand
  dsimp only
  split
  · exact keepsSize_bind (keepsSize_throw _) fun _ => keepsSize_slot _
  · exact keepsSize_slot _

/-- Writing an operand does not change how many slots there are. -/
theorem keepsSize_write (c : StubCall) (depth : Nat) (v : Value) : KeepsSize (c.write depth v) := by
  have hwrite : KeepsSize (do
      if c.sp - depth < (← get).slots.size then
        modify fun s => { s with slots := s.slots.setIfInBounds (c.sp - depth) v.toCell }
      else throw (.resultOutsideFrame (c.sp - depth)) : StubM Unit) := by
    refine keepsSize_get fun s => ?_
    split
    · exact fun _ => Array.size_setIfInBounds
    · exact keepsSize_throw _
  unfold StubCall.write
  dsimp only
  split
  · exact keepsSize_bind (keepsSize_throw _) fun _ => hwrite
  · exact hwrite

theorem keepsSize_name (c : StubCall) : KeepsSize c.name := by
  unfold StubCall.name
  split
  · exact keepsSize_lift _
  · exact keepsSize_throw _

/-- A stub writes slots but adds or drops none. -/
theorem keepsSize_invoke (c : StubCall) (stub : Stub) : KeepsSize (c.invoke stub) := by
  cases stub
  all_goals
    simp only [StubCall.invoke, StubCall.unary, StubCall.binary, StubCall.answer, StubCall.create,
      StubCall.initProp]
    repeat' with_reducible refine keepsSize_bind ?_ fun _ => ?_
  all_goals
    simp only [keepsSize_pure, keepsSize_lift, keepsSize_operand, keepsSize_write, keepsSize_name]

end StubM

/-! ### Actions of the machine -/

/-- The registers of the shape have contents, and the memory and the cache states are those
that the code needs. -/
structure Machine.Fits (m : Machine) (c : Code) (P : Shape) : Prop where
  shape : m.shape.Covers P
  slots : m.slots.size = c.frameSize
  caches : m.caches.size = c.caches.size

namespace Machine

variable {m : Machine} {c : Code} {P : Shape}

theorem Fits.mono (h : m.Fits c P) {Q : Shape} (hP : P.Covers Q) : m.Fits c Q :=
  ⟨h.shape.trans hP, h.slots, h.caches⟩

theorem Fits.setReg (h : m.Fits c P) {r : Reg} (hr : r.Valid) (w : UInt64) :
    (m.setReg r w).Fits c (P.withReg r) := by
  refine ⟨⟨fun q hq => ?_, h.shape.freg⟩, h.slots, h.caches⟩
  change ((m.setReg r w).reg q).isSome
  rw [reg_setReg]
  split
  · rfl
  · next hne => exact h.shape.reg q (hq.resolve_left fun heq => hne ⟨heq.symm, hr⟩)

theorem Fits.setFReg (h : m.Fits c P) {r : FReg} (hr : r.Valid) (d : Double) :
    (m.setFReg r d).Fits c (P.withFReg r) := by
  refine ⟨⟨h.shape.reg, fun q hq => ?_⟩, h.slots, h.caches⟩
  change ((m.setFReg r d).freg q).isSome
  rw [freg_setFReg]
  split
  · rfl
  · next hne => exact h.shape.freg q (hq.resolve_left fun heq => hne ⟨heq.symm, hr⟩)

theorem Fits.modifySlot (h : m.Fits c P) (s : Slot) (g : Cell → Cell) :
    (m.modifySlot s g).Fits c P :=
  ⟨⟨h.shape.reg, h.shape.freg⟩, (size_modifySlot ..).trans h.slots, h.caches⟩

/-- A call that keeps nothing leaves the word that it returns. -/
theorem Fits.clobber (h : m.Fits c P) (w : UInt64) : (m.clobber .empty w).Fits c Shape.result := by
  refine ⟨⟨fun r hr => ?_, fun _ hr => hr.elim⟩, h.slots, h.caches⟩
  cases hr
  have hmask : RegMask.empty.hasReg .result = false := by decide
  have hlt : Reg.result.index < Reg.count := by decide
  change ((m.clobber .empty w).reg .result).isSome
  simp [reg, Machine.clobber, hmask, hlt]

/-- There are more register numbers than registers. -/
theorem not_covers_all (m : Machine) : ¬ m.shape.Covers Shape.all := by
  intro h
  have hr := h.reg ⟨Reg.count⟩ trivial
  simp [shape, reg] at hr

end Machine

namespace MachineM

variable {α β : Type} {p : Position} {P : Shape}

/-- The action does not end with a structural fault. If it succeeds, the registers that have
contents afterwards satisfy `Q`; memory and caches keep their sizes. -/
def Safe (p : Position) (x : MachineM α) (P : Shape) (Q : α → Shape → Prop) : Prop :=
  ∀ m : Machine, m.Fits p.code P → match x p m with
    | .ok a m' => ∃ P', m'.Fits p.code P' ∧ Q a P'
    | .error f m' => f.isStructural = false ∧ m'.caches.size = p.code.caches.size

variable {x : MachineM α} {Q : α → Shape → Prop} {r : Reg} {w : UInt64} {cells : Array Cell}

theorem safe_of_ok
    (h : ∀ m : Machine, m.Fits p.code P → ∃ a m' P', x p m = .ok a m' ∧
      m'.Fits p.code P' ∧ Q a P') :
    Safe p x P Q := by
  intro m hm
  obtain ⟨a, m', P', hx, hm', hq⟩ := h m hm
  rw [hx]
  exact ⟨P', hm', hq⟩

theorem Safe.mono {Q' : α → Shape → Prop} (h : Safe p x P Q) (hQ : ∀ a P', Q a P' → Q' a P') :
    Safe p x P Q' := by
  intro m hm
  have hx := h m hm
  split at hx
  · next a m' heq =>
    obtain ⟨P', hm', hq⟩ := hx
    exact ⟨P', hm', hQ a P' hq⟩
  · exact hx

theorem safe_pure {a : α} (h : Q a P) : Safe p (pure a) P Q :=
  fun _ hm => ⟨P, hm, h⟩

/-- One step after the other. -/
theorem safe_bind {k : α → MachineM β} {Q : β → Shape → Prop}
    (h : Safe p x P fun a P' => Safe p (k a) P' Q) : Safe p (x >>= k) P Q := by
  intro m hm
  have hx := h m hm
  change match EStateM.bind (x p) (fun a => k a p) m with
    | .ok a m' => ∃ P', m'.Fits p.code P' ∧ Q a P'
    | .error f m' => f.isStructural = false ∧ m'.caches.size = p.code.caches.size
  unfold EStateM.bind
  cases hrun : x p m with
  | error f m' =>
    rw [hrun] at hx
    exact hx
  | ok a m' =>
    rw [hrun] at hx
    obtain ⟨P', hm', hk⟩ := hx
    exact hk m' hm'

theorem safe_fault {f : Offset → Fault} (hf : (f p.offset).isStructural = false) :
    Safe p (fault f) P Q :=
  fun _ hm => ⟨hf, hm.caches⟩

theorem safe_read {k : Position → MachineM α} (h : Safe p (k p) P Q) : Safe p (read >>= k) P Q :=
  h

theorem safe_get {k : Machine → MachineM α}
    (h : ∀ m : Machine, m.Fits p.code P → Safe p (k m) P Q) :
    Safe p (get >>= k) P Q :=
  fun m hm => h m hm m hm

theorem safe_modify {g : Machine → Machine} {P' : Shape} {Q : PUnit → Shape → Prop}
    (hg : ∀ m : Machine, m.Fits p.code P → (g m).Fits p.code P') (h : Q ⟨⟩ P') :
    Safe p (modify g) P Q :=
  fun m hm => ⟨P', hg m hm, h⟩

theorem safe_count {g : Stats → Stats} {Q : Unit → Shape → Prop} (h : Q () P) :
    Safe p (count g) P Q := by
  refine safe_read ?_
  split
  · exact safe_modify (fun m hm => ⟨⟨hm.shape.reg, hm.shape.freg⟩, hm.slots, hm.caches⟩) h
  · exact safe_pure h

theorem safe_expect {x : Except OpError α} (h : ∀ a, Q a P) : Safe p (expect x) P Q := by
  cases x with
  | ok a => exact safe_pure (h a)
  | error e => exact fun _ hm => ⟨rfl, hm.caches⟩

/-! ### Registers, memory and operands -/

theorem safe_getReg {Q : UInt64 → Shape → Prop} (hr : P.reg r) (h : ∀ w, Q w P) :
    Safe p (getReg r) P Q :=
  safe_of_ok fun m hm => by
    obtain ⟨w, hw⟩ := Option.isSome_iff_exists.1 (hm.shape.reg r hr)
    exact ⟨w, m, P, getReg_ok hw, hm, h w⟩

theorem safe_getFReg {r : FReg} {Q : Double → Shape → Prop} (hr : P.freg r) (h : ∀ d, Q d P) :
    Safe p (getFReg r) P Q :=
  safe_of_ok fun m hm => by
    obtain ⟨d, hd⟩ := Option.isSome_iff_exists.1 (hm.shape.freg r hr)
    exact ⟨d, m, P, getFReg_ok hd, hm, h d⟩

theorem safe_setReg {Q : Unit → Shape → Prop} (hr : r.Valid) (h : Q () (P.withReg r)) :
    Safe p (setReg r w) P Q :=
  safe_of_ok fun m hm => ⟨(), m.setReg r w, P.withReg r, setReg_ok w hr, hm.setReg hr w, h⟩

theorem safe_setReg? {r : Option Reg} {Q : Unit → Shape → Prop} (hr : ∀ q, r = some q → q.Valid)
    (h : Q () (P.withReg? r)) : Safe p (setReg? r w) P Q := by
  cases r with
  | none => exact safe_pure h
  | some r => exact safe_setReg (hr r rfl) h

theorem safe_setFReg {r : FReg} {d : Double} {Q : Unit → Shape → Prop} (hr : r.Valid)
    (h : Q () (P.withFReg r)) : Safe p (setFReg r d) P Q :=
  safe_of_ok fun m hm => ⟨(), m.setFReg r d, P.withFReg r, setFReg_ok d hr, hm.setFReg hr d, h⟩

theorem safe_getSlot {s : Slot} {Q : Cell → Shape → Prop} (hs : s < p.code.frameSize)
    (h : ∀ c, Q c P) : Safe p (getSlot s) P Q :=
  safe_of_ok fun m hm =>
    ⟨_, m, P, getSlot_ok (Array.getElem?_eq_getElem (hm.slots ▸ hs)), hm, h _⟩

theorem safe_updateSlot {s : Slot} {g : Cell → Cell} {Q : Unit → Shape → Prop}
    (hs : s < p.code.frameSize) (h : Q () P) : Safe p (updateSlot s g) P Q :=
  safe_of_ok fun m hm =>
    ⟨(), m.modifySlot s g, P, updateSlot_ok g (hm.slots ▸ hs), hm.modifySlot s g, h⟩

theorem safe_decodeFrame {sp : Nat} {Q : List Value → Shape → Prop} (hsp : sp ≤ p.code.frameSize)
    (h : ∀ vs, Q vs P) : Safe p (decodeFrame sp) P Q := by
  refine safe_get fun m hm => ?_
  dsimp only
  rw [if_neg (by rw [hm.slots]; exact Nat.not_lt.2 hsp)]
  exact safe_expect h

theorem safe_operand {o : Operand} {Q : UInt64 → Shape → Prop} (ho : o.Reads p.code.frameSize P)
    (h : ∀ w, Q w P) : Safe p (operand o) P Q := by
  cases o with
  | reg r => exact safe_getReg ho h
  | imm n => exact safe_pure (h _)
  | tag s | payload s => exact safe_bind (safe_getSlot ho fun _ => safe_pure (h _))

theorem safe_source {s : Source} {Q : Cell → Shape → Prop} (hs : s.Reads P) (h : ∀ c, Q c P) :
    Safe p (source s) P Q := by
  cases s with
  | constant c => exact safe_pure (h _)
  | typed t r => exact safe_bind (safe_getReg hs fun _ => safe_pure (h _))
  | regs t r =>
    exact safe_bind (safe_getReg hs.1 fun _ => safe_bind (safe_getReg hs.2 fun _ =>
      safe_pure (h _)))
  | double r => exact safe_bind (safe_getFReg hs fun _ => safe_pure (h _))

theorem safe_indexKey {k : IndexKey} {Q : Nat → Shape → Prop} (hk : k.Reads P) (h : ∀ i, Q i P) :
    Safe p (indexKey k) P Q := by
  cases k with
  | constant i => exact safe_pure (h _)
  | reg r => exact safe_bind (safe_getReg hk fun _ => safe_pure (h _))

theorem safe_cacheKey {k : CacheKey} {Q : Value → Shape → Prop} (hk : k.Reads P)
    (h : ∀ v, Q v P) : Safe p (cacheKey k) P Q := by
  match k, hk with
  | .constant i, _ => exact safe_pure (h _)
  | .reg (some tag) payload _, hk =>
    exact safe_bind (safe_getReg hk.1 fun _ => safe_bind (safe_getReg hk.2 fun _ =>
      safe_expect h))
  | .reg none payload (some w), hk =>
    exact safe_bind (safe_pure (safe_bind (safe_getReg hk.2 fun _ => safe_expect h)))

/-! ### The heap -/

theorem safe_objectIn {Q : Object → Shape → Prop} (hr : P.reg r) (h : ∀ o, Q o P) :
    Safe p (objectIn r) P Q :=
  safe_bind (safe_getReg hr fun _ => safe_get fun _ _ => safe_expect h)

theorem safe_updateObjectIn {g : Object → MachineM Object} {Q : Unit → Shape → Prop} (hr : P.reg r)
    (hg : ∀ o, Safe p (g o) P fun _ P' => P' = P) (h : Q () P) :
    Safe p (updateObjectIn r g) P Q := by
  refine safe_bind (safe_getReg hr fun _ => safe_bind (safe_expect fun _ => ?_))
  refine safe_get fun _ _ => safe_bind (safe_expect fun o => safe_bind ((hg o).mono ?_))
  rintro _ _ rfl
  exact safe_modify (fun m hm => ⟨⟨hm.shape.reg, hm.shape.freg⟩, hm.slots, hm.caches⟩) h

theorem onHeap_run (x : HeapM α) (p : Position) (m : Machine) : onHeap x p m =
    match x m.heap with
    | .ok a heap => .ok a { m with heap }
    | .error e heap => .error (.heap e) { m with heap } := by
  unfold onHeap
  rw [get_bind]
  cases x m.heap <;> rfl

theorem safe_onHeap {x : HeapM α} (h : ∀ a, Q a P) : Safe p (onHeap x) P Q := by
  intro m hm
  rw [onHeap_run]
  cases x m.heap with
  | ok a heap => exact ⟨P, ⟨⟨hm.shape.reg, hm.shape.freg⟩, hm.slots, hm.caches⟩, h a⟩
  | error e heap => exact ⟨rfl, hm.caches⟩

theorem safe_cellAt {i : Nat} {Q : Cell → Shape → Prop} (h : ∀ c, Q c P) :
    Safe p (cellAt cells i) P Q := by
  unfold cellAt
  split
  · exact safe_pure (h _)
  · exact safe_fault rfl

theorem safe_withCell {i : Nat} {c : Cell} {Q : Array Cell → Shape → Prop} (h : ∀ cs, Q cs P) :
    Safe p (withCell cells i c) P Q := by
  unfold withCell
  split
  · exact safe_pure (h _)
  · exact safe_fault rfl

theorem safe_loadCell {c : Cell} {tag : Option Reg} {payload : Reg} {Q : Unit → Shape → Prop}
    (htag : ∀ r, tag = some r → r.Valid) (hpayload : payload.Valid)
    (h : Q () ((P.withReg? tag).withReg payload)) : Safe p (loadCell c tag payload) P Q :=
  safe_bind (safe_setReg? htag (safe_setReg hpayload h))

/-! ### Guards -/

theorem safe_setResult {dst : Reg} {i : Option Int32} {Q : Bool → Shape → Prop} (hr : dst.Valid)
    (htrip : Q true P) (hpass : Q false (P.withReg dst)) : Safe p (setResult dst i) P Q := by
  cases i with
  | some i => exact safe_bind (safe_setReg hr (safe_pure hpass))
  | none => exact safe_pure htrip

/-- A test that changes nothing. -/
theorem safe_test {b : Bool} {S : Shape} (h : P.Covers S) :
    Safe p (pure b) P fun b P' => if b then P' = P else P'.Covers S := by
  cases b with
  | true => exact safe_pure rfl
  | false => exact safe_pure h

/-- A guard that trips has changed no register. -/
theorem safe_trips {g : Guard} (hg : g.Reads p.code.frameSize P) :
    Safe p (trips g) P fun b P' => if b then P' = P else P'.Covers (g.after P) := by
  cases g with
  | always => exact safe_pure rfl
  | compare cond lhs rhs =>
    refine safe_bind (safe_operand hg.1 fun _ => safe_bind (safe_operand hg.2 fun _ => ?_))
    exact safe_test (.refl P)
  | test nonZero lhs mask =>
    refine safe_bind (safe_getReg hg.1 fun _ => safe_bind (safe_operand hg.2 fun _ => ?_))
    exact safe_test (.refl P)
  | compareDouble cond lhs rhs =>
    refine safe_bind (safe_getFReg hg.1 fun _ => safe_bind (safe_getFReg hg.2 fun _ => ?_))
    exact safe_test (.refl P)
  | checked op dst src =>
    refine safe_bind (safe_getReg hg.1.1 fun _ => safe_bind (safe_operand hg.2 fun _ => ?_))
    exact safe_setResult hg.1.2 rfl (P.withReg_covers dst)
  | truncate src dst | convert src dst =>
    exact safe_bind (safe_getFReg hg.1 fun _ => safe_setResult hg.2 rfl (.refl _))
  | objectClass cond obj cls =>
    refine safe_bind (safe_objectIn hg.2 fun o => ?_)
    rcases hg.1 with rfl | rfl
    · exact safe_test (.refl P)
    · exact safe_test (.refl P)
  | extent e obj key cond | hole obj key =>
    refine safe_bind (safe_indexKey hg.2 fun _ => safe_bind (safe_objectIn hg.1 fun _ => ?_))
    exact safe_test (.refl P)
  | loadPacked obj key tag payload =>
    refine safe_bind (safe_indexKey hg.1.2 fun _ => safe_bind (safe_objectIn hg.1.1 fun _ => ?_))
    refine safe_bind (safe_cellAt fun cell => ?_)
    split
    · exact safe_bind (safe_count (safe_pure rfl))
    · exact safe_bind (safe_loadCell hg.2.1 hg.2.2 (safe_pure (.refl _)))
  | epoch expected =>
    exact safe_get fun _ _ => safe_test (.refl P)

end MachineM

/-! ### Code with shapes -/

/-- The positions of the code have shapes. Every instruction reads only what is there and
covers the positions that it leads to; every call has a site, and every cache an entry. -/
structure Code.Shaped (c : Code) (Γ : Offset → Shape) : Prop where
  inst : ∀ (o : Offset) (i : Inst), c.insts[o]? = some i →
    i.Reads c.frameSize (Γ o) ∧ (i.after (Γ o)).Covers (Γ (o + 1))
  branch : ∀ (o : Offset) (g : Guard) (t : Offset), c.insts[o]? = some (.branch g t) →
    (Γ o).Covers (Γ t)
  ends : ∀ o : Offset, c.insts[o]? = none → Γ o = Shape.all
  entry : ∃ o, c.offset? 0 = some o ∧ Shape.none.Covers (Γ o)
  call : ∀ (o : Offset) (i : Inst), c.insts[o]? = some i → i.isCall →
    ∃ k s, c.siteIndex? o = some k ∧ c.sites[k]? = some s
  site : ∀ s ∈ c.sites, s.sp < c.frameSize ∧ s.spAfter < c.frameSize
  cache : ∀ (o : Offset) (n : CacheId) (sp : Nat) (mask : RegMask),
    c.insts[o]? = some (.callCache n sp mask) → ∃ k : CacheLayout Offset, c.caches[n]? = some k ∧
      (MachineM.cacheStub k.kind).uses ≤ sp ∧ sp < c.frameSize
  start : ∀ k ∈ c.caches, (Γ k.start).Covers (Γ k.slowStart)
  guard : ∀ k ∈ c.caches, (Γ k.classGuard).reg k.obj ∧ k.key.Reads (Γ k.classGuard) ∧
    k.Hits (Γ k.classGuard) (Γ k.rejoin)

/-- Control goes to a position whose shape is covered. -/
def Control.Lands (Γ : Offset → Shape) (o : Offset) (P : Shape) : Control → Prop
  | next => P.Covers (Γ (o + 1))
  | goto target => P.Covers (Γ target)
  | stop _ => True

namespace MachineM

variable {p : Position} {P : Shape} {Γ : Offset → Shape}

/-! ### Caches -/

variable {cache : CacheId} {k : CacheLayout Offset} {Q : Unit → Shape → Prop} {stub : Stub}
  {sp : Nat} {arg : Int64} {o : Offset}

theorem safe_cacheLayout {Q : CacheLayout Offset → Shape → Prop}
    (hk : p.code.caches[cache]? = some k) (h : Q k P) : Safe p (cacheLayout cache) P Q := by
  refine safe_read ?_
  rw [hk]
  exact safe_pure h

/-- A learned case leaves the registers that are needed after the access. -/
theorem safe_probe? {T : Shape} (hk : p.code.caches[cache]? = some k) (hobj : P.reg k.obj)
    (hkey : k.key.Reads P) (hhit : k.Hits P T) : Safe p (probe? cache) P fun r P' =>
      match r with
      | some target => target = k.rejoin ∧ P'.Covers T
      | none => P' = P := by
  refine safe_get fun m hm => ?_
  have hlt : cache < m.caches.size := by
    rw [hm.caches]
    exact (Array.getElem?_eq_some_iff.1 hk).1
  rw [Array.getElem?_eq_getElem hlt]
  dsimp only
  split
  · exact safe_pure rfl
  refine safe_bind (safe_cacheLayout hk (safe_bind (safe_getReg hobj fun _ => ?_)))
  refine safe_bind (safe_cacheKey hkey fun key => ?_)
  cases hkind : k.kind with
  | get =>
    obtain ⟨tag, payload, hresult, htag, hpayload, hT⟩ := hhit.read hkind
    refine safe_bind ?_
    refine safe_get fun _ _ => safe_bind (safe_expect fun found => ?_)
    cases found with
    | none => exact safe_pure (safe_pure rfl)
    | some cell =>
      simp only [hresult]
      refine safe_bind (safe_loadCell (fun r hr => Option.some.inj hr ▸ htag) hpayload ?_)
      exact safe_pure (safe_bind (safe_count (safe_pure ⟨rfl, hT⟩)))
  | set =>
    obtain ⟨value, hvalue, hreads, hT⟩ := hhit.write hkind
    refine safe_bind ?_
    unfold probeWrite
    simp only [hvalue]
    refine safe_bind (safe_source hreads fun _ => safe_bind (safe_expect fun _ => ?_))
    refine safe_get fun _ _ => safe_bind (safe_expect fun found => ?_)
    cases found with
    | none => exact safe_pure (safe_pure rfl)
    | some heap =>
      have hsafe : Safe p (modify fun m => { m with heap }) P fun _ P' => P' = P :=
        safe_modify (fun m hm => ⟨⟨hm.shape.reg, hm.shape.freg⟩, hm.slots, hm.caches⟩) rfl
      refine safe_bind (hsafe.mono ?_)
      rintro _ _ rfl
      exact safe_pure (safe_bind (safe_count (safe_pure ⟨rfl, hT⟩)))

/-- A branch that has tripped covers where it goes. -/
theorem safe_tripped {g : Guard} {target : Offset} (hc : p.code.Shaped Γ)
    (htarget : (Γ p.offset).Covers (Γ target)) :
    Safe p (tripped g target) (Γ p.offset) fun t P' => P'.Covers (Γ t) := by
  unfold tripped
  split
  · refine safe_read ?_
    split
    · next cache hcache =>
      obtain ⟨k, hk, hguard⟩ := lastIndexOf?_some hcache
      obtain ⟨hobj, hkey, hhit⟩ := hc.guard k (Array.mem_of_getElem? hk)
      rw [beq_iff_eq.1 hguard] at hobj hkey hhit
      refine safe_bind ((safe_probe? hk hobj hkey hhit).mono fun r P' hr => safe_pure ?_)
      cases r with
      | some t =>
        obtain ⟨rfl, hcov⟩ := hr
        exact hcov
      | none =>
        subst hr
        exact htarget
    · exact safe_pure htarget
  · exact safe_pure htarget

theorem safe_learn {base key : Value} (h : Q () P) : Safe p (learn cache base key) P Q := by
  refine safe_bind (safe_onHeap fun found => ?_)
  cases found with
  | none => exact safe_pure h
  | some case =>
    refine safe_read (safe_modify (fun m hm => ?_) h)
    exact ⟨⟨hm.shape.reg, hm.shape.freg⟩, hm.slots, Array.size_modify.trans hm.caches⟩

/-! ### Calls -/

/-- The current instruction has a site, and so has the code the slots of all sites. -/
structure AtCall (p : Position) : Prop where
  found : ∃ k s, p.code.siteIndex? p.offset = some k ∧ p.code.sites[k]? = some s
  room : ∀ s ∈ p.code.sites, s.sp < p.code.frameSize ∧ s.spAfter < p.code.frameSize

theorem safe_site {Q : RejoinSite → Shape → Prop} (hp : AtCall p)
    (h : ∀ s : RejoinSite, s.sp < p.code.frameSize → s.spAfter < p.code.frameSize → Q s P) :
    Safe p site P Q := by
  obtain ⟨k, s, hk, hs⟩ := hp.found
  refine safe_read ?_
  simp only [hk, Option.bind_some, hs]
  obtain ⟨hsp, hafter⟩ := hp.room s (Array.mem_of_getElem? hs)
  exact safe_pure (h s hsp hafter)

theorem safe_stubFailure {e : OpError} (hp : AtCall p) :
    Safe p (stubFailure e) P fun ctl _ => ∃ o, ctl = .stop o :=
  safe_bind (safe_site hp fun _ hsp _ => safe_bind (safe_count (safe_bind
    (safe_decodeFrame (Nat.le_of_lt hsp) fun _ => safe_pure ⟨_, rfl⟩))))

/-- A type barrier goes on or stops. -/
theorem safe_typeBarrier (hp : AtCall p) :
    Safe p (typeBarrier stub) P fun ctl P' => P' = P ∧ (ctl = .next ∨ ∃ o, ctl = .stop o) := by
  refine safe_bind (safe_site hp fun s _ hafter => ?_)
  split
  · exact safe_pure ⟨rfl, .inl rfl⟩
  · split
    · exact safe_pure ⟨rfl, .inl rfl⟩
    · refine safe_bind (safe_getSlot (Nat.lt_of_le_of_lt (Nat.sub_le ..) hafter) fun _ => ?_)
      refine safe_bind (safe_expect fun result => ?_)
      split
      · exact safe_pure ⟨rfl, .inl rfl⟩
      · exact safe_bind (safe_count (safe_bind (safe_decodeFrame (Nat.le_of_lt hafter) fun _ =>
          safe_pure ⟨rfl, .inr ⟨_, rfl⟩⟩)))

/-- A stub may end in any way. -/
theorem safe_runStub {Q : Except OpError UInt64 → Shape → Prop} (h : ∀ r, Q r P) :
    Safe p (runStub stub sp arg) P Q := by
  refine safe_of_ok fun m hm => ?_
  have hsize := StubM.keepsSize_invoke ⟨p.function, sp, arg⟩ stub ⟨m.heap, m.slots⟩
  have hrun := runStub_run (p := p) (m := m) stub sp arg
  cases hx : StubCall.invoke ⟨p.function, sp, arg⟩ stub ⟨m.heap, m.slots⟩ with
  | ok w s | error e s =>
    rw [hx] at hsize hrun
    exact ⟨_, _, P, hrun, ⟨⟨hm.shape.reg, hm.shape.freg⟩, hsize.trans hm.slots, hm.caches⟩, h _⟩

/-- A call of a stub goes on behind it or leaves. -/
theorem safe_callStub (hp : AtCall p) (h : Shape.result.Covers (Γ (o + 1))) :
    Safe p (callStub stub sp arg) P fun ctl P' => ctl.Lands Γ o P' := by
  refine safe_bind (safe_count (safe_bind (safe_runStub fun result => ?_)))
  cases result with
  | error e =>
    refine (safe_stubFailure hp).mono ?_
    rintro _ _ ⟨o, rfl⟩
    trivial
  | ok w =>
    refine safe_bind (safe_modify (fun m hm => hm.clobber w) ((safe_typeBarrier hp).mono ?_))
    rintro _ _ ⟨rfl, rfl | ⟨o, rfl⟩⟩
    · exact h
    · trivial

/-- A call of a cache does not leave the frame. -/
theorem safe_callCache {mask : RegMask} (hp : AtCall p) (hk : p.code.caches[cache]? = some k)
    (huses : (cacheStub k.kind).uses ≤ sp) (hsp : sp < p.code.frameSize)
    (h : Shape.none.Covers (Γ (o + 1))) :
    Safe p (callCache cache sp mask) P fun ctl P' => ctl.Lands Γ o P' := by
  have htwo : 2 ≤ (cacheStub k.kind).uses := by cases k.kind <;> decide
  refine safe_bind (safe_cacheLayout hk ?_)
  dsimp only
  rw [if_neg (Nat.not_lt.2 huses)]
  refine safe_bind (safe_getSlot (by lia) fun _ => safe_bind (safe_expect fun base => ?_))
  refine safe_bind (safe_getSlot (by lia) fun _ => safe_bind (safe_expect fun key => ?_))
  refine safe_bind (safe_count (safe_bind (safe_runStub fun result => ?_)))
  cases result with
  | error e =>
    refine (safe_stubFailure hp).mono ?_
    rintro _ _ ⟨o, rfl⟩
    trivial
  | ok w =>
    have hclobber : Safe p (modify (·.clobber mask w)) P fun _ P' => P' = Shape.none :=
      safe_modify (fun m hm => ⟨Shape.covers_none _, hm.slots, hm.caches⟩) rfl
    refine safe_bind (safe_learn (safe_bind (hclobber.mono ?_)))
    rintro _ _ rfl
    refine (safe_typeBarrier hp).mono ?_
    rintro _ _ ⟨rfl, rfl | ⟨o, rfl⟩⟩
    · exact h
    · trivial

/-! ### Steps -/

theorem safe_andNext {x : MachineM Unit} (h : Safe p x P fun _ P' => P'.Covers (Γ (o + 1))) :
    Safe p (andNext x) P fun ctl P' => ctl.Lands Γ o P' :=
  safe_bind (h.mono fun _ _ hP => safe_pure hP)

/-- An instruction leads from the shape of its position to that of the next. -/
theorem safe_execute {i : Inst} (hc : p.code.Shaped Γ) (hi : p.code.insts[p.offset]? = some i) :
    Safe p (execute i) (Γ p.offset) fun ctl P' => ctl.Lands Γ p.offset P' := by
  obtain ⟨hr, ha⟩ := hc.inst p.offset i hi
  cases i with
  | move dst src => exact safe_andNext (safe_bind (safe_operand hr.1 fun _ => safe_setReg hr.2 ha))
  | storeTag slot src | storePayload slot src =>
    exact safe_andNext (safe_bind (safe_operand hr.1 fun _ => safe_updateSlot hr.2 ha))
  | storeValue slot src =>
    exact safe_andNext (safe_bind (safe_source hr.1 fun _ => safe_updateSlot hr.2 ha))
  | copySlot dst src =>
    exact safe_andNext (safe_bind (safe_getSlot hr.2 fun _ => safe_updateSlot hr.1 ha))
  | loadDouble dst slot =>
    exact safe_andNext (safe_bind (safe_getSlot hr.1 fun _ => safe_setFReg hr.2 ha))
  | moveDoubleImm dst value | zeroDouble dst => exact safe_andNext (safe_setFReg hr ha)
  | moveDouble dst src =>
    exact safe_andNext (safe_bind (safe_getFReg hr.1 fun _ => safe_setFReg hr.2 ha))
  | moveBitsToDouble dst src | int32ToDouble dst src | uint32ToDouble dst src =>
    exact safe_andNext (safe_bind (safe_getReg hr.1 fun _ => safe_setFReg hr.2 ha))
  | aluDouble op dst src =>
    exact safe_andNext (safe_bind (safe_getFReg hr.1.1 fun _ =>
      safe_bind (safe_getFReg hr.1.2 fun _ => safe_setFReg hr.2 ha)))
  | alu op dst src | set cond lhs rhs dst =>
    exact safe_andNext (safe_bind (safe_getReg hr.1.1 fun _ =>
      safe_bind (safe_operand hr.1.2 fun _ => safe_setReg hr.2 ha)))
  | bitNot dst =>
    exact safe_andNext (safe_bind (safe_getReg hr.1 fun _ => safe_setReg hr.2 ha))
  | setDouble cond lhs rhs dst =>
    exact safe_andNext (safe_bind (safe_getFReg hr.1.1 fun _ =>
      safe_bind (safe_getFReg hr.1.2 fun _ => safe_setReg hr.2 ha)))
  | loadExtent dst obj extent =>
    exact safe_andNext (safe_bind (safe_objectIn hr.1 fun _ => safe_setReg hr.2 ha))
  | storeExtent obj extent src =>
    exact safe_andNext (safe_bind (safe_operand hr.2 fun _ =>
      safe_updateObjectIn hr.1 (fun _ => safe_expect fun _ => rfl) ha))
  | loadElement obj key tag payload =>
    refine safe_andNext (safe_bind (safe_indexKey hr.1.2 fun _ => ?_))
    refine safe_bind (safe_objectIn hr.1.1 fun _ => safe_bind (safe_cellAt fun _ => ?_))
    exact safe_loadCell hr.2.1 hr.2.2 ha
  | storeElement obj key value =>
    refine safe_andNext (safe_bind (safe_indexKey hr.1.2 fun _ => ?_))
    refine safe_bind (safe_source hr.2 fun _ => safe_updateObjectIn hr.1.1 (fun _ => ?_) ha)
    exact safe_bind (safe_withCell fun _ => safe_pure rfl)
  | loadNamed obj slot tag payload =>
    refine safe_andNext
      (safe_bind (safe_objectIn hr.1 fun _ => safe_bind (safe_cellAt fun _ => ?_)))
    exact safe_loadCell hr.2.1 hr.2.2 ha
  | storeNamed obj slot value =>
    refine safe_andNext (safe_bind (safe_source hr.2 fun _ =>
      safe_updateObjectIn hr.1 (fun _ => ?_) ha))
    exact safe_bind (safe_withCell fun _ => safe_pure rfl)
  | callStub stub sp arg => exact safe_callStub ⟨hc.call _ _ hi rfl, hc.site⟩ ha
  | callCache cache sp mask =>
    obtain ⟨k, hk, huses, hsp⟩ := hc.cache _ _ _ _ hi
    exact safe_callCache ⟨hc.call _ _ hi rfl, hc.site⟩ hk huses hsp ha
  | branch g target =>
    refine safe_bind ((safe_trips hr).mono fun b P' hP => ?_)
    cases b with
    | false => exact safe_pure (Shape.Covers.trans hP ha)
    | true =>
      subst hP
      refine safe_bind ((safe_tripped hc (hc.branch _ _ _ hi)).mono fun t P' hP => ?_)
      exact safe_pure hP
  | ret value =>
    exact safe_bind (safe_source hr fun _ => safe_bind (safe_expect fun _ => safe_pure trivial))

theorem safe_countStep (h : Q () P) : Safe p countStep P Q :=
  safe_read (safe_count h)

/-- Skipping an inline path leads to its slow path, which needs no more registers. -/
theorem safe_redirect? (hc : p.code.Shaped Γ) :
    Safe p redirect? (Γ p.offset) fun r P' =>
      match r with
      | some target => P'.Covers (Γ target)
      | none => P' = Γ p.offset := by
  refine safe_read ?_
  split
  · exact safe_pure rfl
  · next cache hcache =>
    obtain ⟨k, hk, hstart⟩ := lastIndexOf?_some hcache
    have hcovers := hc.start k (Array.mem_of_getElem? hk)
    rw [beq_iff_eq.1 hstart] at hcovers
    refine safe_get fun m _ => ?_
    split
    · exact safe_bind (safe_count (safe_bind (safe_cacheLayout hk (safe_pure hcovers))))
    · exact safe_pure rfl

/-- A step leads from the shape of its position to that of the next. -/
theorem step_safe (hc : p.code.Shaped Γ) :
    Safe p step (Γ p.offset) fun ctl P' => ctl.Lands Γ p.offset P' := by
  refine safe_bind ((safe_redirect? hc).mono fun r P' hr => ?_)
  cases r with
  | some target => exact safe_pure hr
  | none =>
    subst hr
    refine safe_read ?_
    split
    · next hnone =>
      intro m hm
      exact absurd (hc.ends _ hnone ▸ hm.shape) m.not_covers_all
    · next i hi => exact safe_bind (safe_countStep (safe_execute hc hi))

end MachineM

/-! ### Runs -/

/-- No structural fault, and the cache states are still those of the code. -/
def RunsSafely (c : Code) : EStateM.Result Fault Machine Outcome → Prop
  | .ok _ m => m.caches.size = c.caches.size
  | .error f m => f.isStructural = false ∧ m.caches.size = c.caches.size

namespace Machine

variable {Γ : Offset → Shape}

variable {m : Machine}

/-- A run that starts with the registers of its position has no structural fault. -/
theorem runFrom_safe {p : Position} (hc : p.code.Shaped Γ) (limit n : Nat) {o : Offset}
    (hm : m.Fits p.code (Γ o)) : RunsSafely p.code (runFrom p limit n o m) := by
  induction n generalizing o m with
  | zero => exact ⟨rfl, hm.caches⟩
  | succ n ih =>
    have hstep := MachineM.step_safe (p := { p with offset := o }) hc m hm
    rw [runFrom_succ]
    cases hx : MachineM.step { p with offset := o } m with
    | error f m' =>
      rw [hx] at hstep
      exact hstep
    | ok ctl m' =>
      rw [hx] at hstep
      obtain ⟨P', hm', hlands⟩ := hstep
      cases ctl with
      | next | goto target => exact ih (hm'.mono hlands)
      | stop outcome => exact hm'.caches

theorem runCode_safe {code : Code} (hc : code.Shaped Γ) (function : Bytecode.Function)
    (counting : Bool) (limit : Nat) (hm : m.Fits code .none) :
    RunsSafely code (runCode code function counting limit m) := by
  obtain ⟨entry, hentry, hcovers⟩ := hc.entry
  unfold runCode
  rw [hentry]
  exact runFrom_safe (p := ⟨code, function, counting, entry⟩) hc limit limit (hm.mono hcovers)

end Machine

/-- A run of code that has shapes has no structural fault, and leaves the states of the caches
in step with the code. -/
theorem LiveCode.run_safe {live : LiveCode} {Γ : Offset → Shape} (hc : live.code.Shaped Γ)
    (hstates : live.states.size = live.code.caches.size) (function : Bytecode.Function)
    (heap : Heap) (args : List Value) (limit : Nat) (counting : Bool) :
    (∀ f, (live.run function heap args limit counting).outcome = .error f →
      f.isStructural = false) ∧
    (live.run function heap args limit counting).live.states.size = live.code.caches.size := by
  have hrun := Machine.runCode_safe hc function counting limit (m := .start live heap args)
    ⟨Shape.covers_none _, Machine.size_initialSlots _ _, hstates⟩
  unfold LiveCode.run
  cases hx : Machine.runCode live.code function counting limit (.start live heap args) with
  | ok outcome m =>
    rw [hx] at hrun
    exact ⟨nofun, hrun⟩
  | error f m =>
    rw [hx] at hrun
    refine ⟨?_, hrun.2⟩
    rintro _ ⟨⟩
    exact hrun.1

end FastPath
