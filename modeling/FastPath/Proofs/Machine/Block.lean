import FastPath.Machine.Step

/-!
# Straight-line code

The frame tracker and the emitters produce stretches of code without branches. Such a
stretch does the same wherever it stands, so its effect is a relation between two machine
states that mentions no position.

The effect of an instruction is stated through three views of a machine: the contents of a
general register, of a double register, and of a slot. An uninitialised register has no
contents, and neither has one that does not exist.
-/

namespace FastPath

namespace Machine

/-! ### Views -/

/-- The contents of a general register. -/
def reg (m : Machine) (r : Reg) : Option UInt64 := m.regs[r.index]?.join

/-- The contents of a double register. -/
def freg (m : Machine) (r : FReg) : Option Double := m.fregs[r.index]?.join

/-- The machine with a general register replaced. -/
def setReg (m : Machine) (r : Reg) (w : UInt64) : Machine :=
  { m with regs := m.regs.setIfInBounds r.index (some w) }

/-- The machine with a double register replaced. -/
def setFReg (m : Machine) (r : FReg) (d : Double) : Machine :=
  { m with fregs := m.fregs.setIfInBounds r.index (some d) }

/-- The machine with a slot changed. -/
def modifySlot (m : Machine) (s : Slot) (g : Cell → Cell) : Machine :=
  { m with slots := m.slots.modify s g }

/-- The word of an operand. -/
def operand? (m : Machine) : Operand → Option UInt64
  | .reg r => m.reg r
  | .imm n => some n.toUInt64
  | .tag s => m.slots[s]?.map (·.tag)
  | .payload s => m.slots[s]?.map (·.payload)

/-- The cell of a source. -/
def source? (m : Machine) : Source → Option Cell
  | .constant c => some c
  | .typed t r => (m.reg r).map (⟨t.word, ·⟩)
  | .regs t r => (m.reg t).bind fun w => (m.reg r).map (⟨w, ·⟩)
  | .double r => (m.freg r).map fun d => (Value.number d).toCell

theorem operand?_ofTag (m : Machine) (t : Tag) : m.operand? (.ofTag t) = some t.word := by
  cases t <;> rfl

section Views

variable (m : Machine) (r r' : Reg) (x x' : FReg) (s s' : Slot) (w : UInt64) (d : Double)
  (g : Cell → Cell)

@[simp, grind =] theorem reg_setReg :
    (m.setReg r w).reg r' = if r = r' ∧ r.index < Reg.count then some w else m.reg r' := by
  have hiff : r = r' ↔ r.index = r'.index := by
    cases r
    cases r'
    simp
  simp only [reg, setReg, Vector.getElem?_setIfInBounds, hiff]
  by_cases h : r.index = r'.index
  · by_cases hlt : r.index < Reg.count
    · simp [h, h ▸ hlt]
    · have hlt' : ¬ r'.index < Reg.count := h ▸ hlt
      simp [h, hlt']
  · simp [h]

@[simp, grind =] theorem freg_setFReg :
    (m.setFReg x d).freg x' = if x = x' ∧ x.index < FReg.count then some d else m.freg x' := by
  have hiff : x = x' ↔ x.index = x'.index := by
    cases x
    cases x'
    simp
  simp only [freg, setFReg, Vector.getElem?_setIfInBounds, hiff]
  by_cases h : x.index = x'.index
  · by_cases hlt : x.index < FReg.count
    · simp [h, h ▸ hlt]
    · have hlt' : ¬ x'.index < FReg.count := h ▸ hlt
      simp [h, hlt']
  · simp [h]

@[simp, grind =] theorem getElem?_modifySlot :
    (m.modifySlot s g).slots[s']? = if s = s' then m.slots[s']?.map g else m.slots[s']? := by
  simp only [modifySlot, Array.getElem?_modify]

@[simp, grind =] theorem freg_setReg : (m.setReg r w).freg x = m.freg x := rfl

@[simp, grind =] theorem slots_setReg : (m.setReg r w).slots = m.slots := rfl

@[simp, grind =] theorem reg_setFReg : (m.setFReg x d).reg r = m.reg r := rfl

@[simp, grind =] theorem slots_setFReg : (m.setFReg x d).slots = m.slots := rfl

@[simp, grind =] theorem reg_modifySlot : (m.modifySlot s g).reg r = m.reg r := rfl

@[simp, grind =] theorem freg_modifySlot : (m.modifySlot s g).freg x = m.freg x := rfl

@[simp, grind =] theorem size_modifySlot : (m.modifySlot s g).slots.size = m.slots.size := by
  simp only [modifySlot, Array.size_modify]

end Views

/-- The heap, the caches, the counts and the size of the frame are what they were. -/
structure SameWorld (m m' : Machine) : Prop where
  heap : m'.heap = m.heap
  caches : m'.caches = m.caches
  stats : m'.stats = m.stats
  size : m'.slots.size = m.slots.size

namespace SameWorld

theorem refl (m : Machine) : SameWorld m m := ⟨rfl, rfl, rfl, rfl⟩

theorem trans {m₁ m₂ m₃ : Machine} (h : SameWorld m₁ m₂) (h' : SameWorld m₂ m₃) :
    SameWorld m₁ m₃ :=
  ⟨h'.heap.trans h.heap, h'.caches.trans h.caches, h'.stats.trans h.stats,
    h'.size.trans h.size⟩

theorem setReg (m : Machine) (r : Reg) (w : UInt64) : SameWorld m (m.setReg r w) :=
  ⟨rfl, rfl, rfl, rfl⟩

theorem setFReg (m : Machine) (r : FReg) (d : Double) : SameWorld m (m.setFReg r d) :=
  ⟨rfl, rfl, rfl, rfl⟩

theorem modifySlot (m : Machine) (s : Slot) (g : Cell → Cell) :
    SameWorld m (m.modifySlot s g) :=
  ⟨rfl, rfl, rfl, size_modifySlot m s g⟩

end SameWorld

/-- The machines differ in the memory of one slot at most. -/
structure OnlySlot (m m' : Machine) (s : Slot) : Prop where
  reg : ∀ r, m'.reg r = m.reg r
  freg : ∀ r, m'.freg r = m.freg r
  slot : ∀ s', s' ≠ s → m'.slots[s']? = m.slots[s']?
  world : SameWorld m m'

namespace OnlySlot

theorem refl (m : Machine) (s : Slot) : OnlySlot m m s :=
  ⟨fun _ => rfl, fun _ => rfl, fun _ _ => rfl, .refl m⟩

theorem trans {m₁ m₂ m₃ : Machine} {s : Slot} (h : OnlySlot m₁ m₂ s) (h' : OnlySlot m₂ m₃ s) :
    OnlySlot m₁ m₃ s :=
  ⟨fun r => (h'.reg r).trans (h.reg r), fun r => (h'.freg r).trans (h.freg r),
    fun s' hs => (h'.slot s' hs).trans (h.slot s' hs), h.world.trans h'.world⟩

theorem modifySlot (m : Machine) (s : Slot) (g : Cell → Cell) :
    OnlySlot m (m.modifySlot s g) s :=
  ⟨fun _ => rfl, fun _ => rfl,
    fun s' hs => by simp only [getElem?_modifySlot, Ne.symm hs, if_false],
    .modifySlot m s g⟩

end OnlySlot

/-- The machines differ in the memory of the first `n` slots at most. -/
structure OnlyMemory (m m' : Machine) (n : Nat) : Prop where
  reg : ∀ r, m'.reg r = m.reg r
  freg : ∀ r, m'.freg r = m.freg r
  above : ∀ s, n ≤ s → m'.slots[s]? = m.slots[s]?
  world : SameWorld m m'

namespace OnlyMemory

theorem refl (m : Machine) (n : Nat) : OnlyMemory m m n :=
  ⟨fun _ => rfl, fun _ => rfl, fun _ _ => rfl, .refl m⟩

theorem trans {m₁ m₂ m₃ : Machine} {n : Nat} (h : OnlyMemory m₁ m₂ n) (h' : OnlyMemory m₂ m₃ n) :
    OnlyMemory m₁ m₃ n :=
  ⟨fun r => (h'.reg r).trans (h.reg r), fun r => (h'.freg r).trans (h.freg r),
    fun s hs => (h'.above s hs).trans (h.above s hs), h.world.trans h'.world⟩

end OnlyMemory

theorem OnlySlot.onlyMemory {m m' : Machine} {s n : Nat} (h : OnlySlot m m' s) (hs : s < n) :
    OnlyMemory m m' n :=
  ⟨h.reg, h.freg, fun _ hs' => h.slot _ (Nat.ne_of_gt (Nat.lt_of_lt_of_le hs hs')), h.world⟩

end Machine

/-! ### Reading and writing -/

namespace MachineM

variable {p : Position} {m m' : Machine}

theorem bind_ok {α β : Type} {x : MachineM α} {k : α → MachineM β} {a : α}
    (h : x p m = .ok a m') : (x >>= k) p m = k a p m' := by
  change EStateM.bind (x p) (fun a => k a p) m = _
  simp only [EStateM.bind, h]

theorem get_bind {β : Type} (k : Machine → MachineM β) : (get >>= k) p m = k m p m := rfl

theorem andNext_ok {x : MachineM Unit} (h : x p m = .ok () m') :
    andNext x p m = .ok .next m' := by
  unfold andNext
  rw [bind_ok h]
  rfl

theorem getReg_ok {r : Reg} {w : UInt64} (h : m.reg r = some w) : getReg r p m = .ok w m := by
  have hr : m.regs[r.index]? = some (some w) := Option.join_eq_some_iff.1 h
  unfold getReg
  rw [get_bind, hr]
  rfl

theorem getFReg_ok {r : FReg} {d : Double} (h : m.freg r = some d) :
    getFReg r p m = .ok d m := by
  have hr : m.fregs[r.index]? = some (some d) := Option.join_eq_some_iff.1 h
  unfold getFReg
  rw [get_bind, hr]
  rfl

theorem setReg_ok {r : Reg} (w : UInt64) (h : r.index < Reg.count) :
    setReg r w p m = .ok () (m.setReg r w) := by
  simp only [setReg, h, if_true]
  rfl

theorem setFReg_ok {r : FReg} (d : Double) (h : r.index < FReg.count) :
    setFReg r d p m = .ok () (m.setFReg r d) := by
  simp only [setFReg, h, if_true]
  rfl

theorem getSlot_ok {s : Slot} {c : Cell} (h : m.slots[s]? = some c) :
    getSlot s p m = .ok c m := by
  unfold getSlot
  rw [get_bind, h]
  rfl

theorem updateSlot_ok {s : Slot} (g : Cell → Cell) (h : s < m.slots.size) :
    updateSlot s g p m = .ok () (m.modifySlot s g) := by
  unfold updateSlot
  rw [get_bind, if_pos h]
  rfl

theorem operand_ok {o : Operand} {w : UInt64} (h : m.operand? o = some w) :
    operand o p m = .ok w m := by
  cases o with
  | reg r => exact getReg_ok h
  | imm n =>
    obtain rfl := Option.some.inj h
    rfl
  | tag s | payload s =>
    obtain ⟨c, hc, rfl⟩ := Option.map_eq_some_iff.1 h
    simp only [operand]
    rw [bind_ok (getSlot_ok hc)]
    rfl

/-- A value whose parts are there can be stored. -/
theorem source_ok {s : Source} {c : Cell} (h : m.source? s = some c) :
    source s p m = .ok c m := by
  cases s with
  | constant c' =>
    obtain rfl := Option.some.inj h
    rfl
  | typed t r =>
    obtain ⟨w, hw, rfl⟩ := Option.map_eq_some_iff.1 h
    simp only [source]
    rw [bind_ok (getReg_ok hw)]
    rfl
  | regs t r =>
    obtain ⟨w, hw, h⟩ := Option.bind_eq_some_iff.1 h
    obtain ⟨w', hw', rfl⟩ := Option.map_eq_some_iff.1 h
    simp only [source]
    rw [bind_ok (getReg_ok hw), bind_ok (getReg_ok hw')]
    rfl
  | double r =>
    obtain ⟨d, hd, rfl⟩ := Option.map_eq_some_iff.1 h
    simp only [source]
    rw [bind_ok (getFReg_ok hd)]
    rfl

end MachineM

/-! ### One instruction -/

/-- The instruction works on registers and the memory of the frame only. -/
def Inst.isLocal : Inst → Bool
  | .loadExtent _ _ _ | .storeExtent _ _ _ | .loadElement _ _ _ _ | .storeElement _ _ _
  | .loadNamed _ _ _ _ | .storeNamed _ _ _ | .callStub _ _ _ | .callCache _ _ _ | .branch _ _
  | .ret _ => false
  | _ => true

theorem Inst.target?_of_isLocal {i : Inst} (h : i.isLocal) : i.target? = none := by
  cases i <;> first | rfl | cases h

/-- Wherever it stands, the instruction takes one state to the other and control goes on
to the next instruction. Only local instructions are meant. -/
def Executes (i : Inst) (m m' : Machine) : Prop :=
  i.isLocal ∧ ∀ p : Position, MachineM.execute i p m = .ok .next m'

section Executes

open MachineM

variable {m : Machine} {r r' : Reg} {x x' : FReg} {s s' : Slot} {o : Operand} {w w' : UInt64}
  {d d' : Double} {c : Cell}

theorem executes_move (h : m.operand? o = some w) (hr : r.index < Reg.count) :
    Executes (.move r o) m (m.setReg r w) := by
  refine ⟨rfl, fun p => ?_⟩
  exact andNext_ok ((bind_ok (operand_ok h)).trans (setReg_ok w hr))

theorem executes_storeTag (h : m.operand? o = some w) (hs : s < m.slots.size) :
    Executes (.storeTag s o) m (m.modifySlot s fun c => { c with tag := w }) := by
  refine ⟨rfl, fun p => ?_⟩
  exact andNext_ok ((bind_ok (operand_ok h)).trans (updateSlot_ok _ hs))

theorem executes_storePayload (h : m.operand? o = some w) (hs : s < m.slots.size) :
    Executes (.storePayload s o) m (m.modifySlot s fun c => { c with payload := w }) := by
  refine ⟨rfl, fun p => ?_⟩
  exact andNext_ok ((bind_ok (operand_ok h)).trans (updateSlot_ok _ hs))

theorem executes_storeValue {src : Source} (h : m.source? src = some c) (hs : s < m.slots.size) :
    Executes (.storeValue s src) m (m.modifySlot s fun _ => c) := by
  refine ⟨rfl, fun p => ?_⟩
  exact andNext_ok ((bind_ok (source_ok h)).trans (updateSlot_ok _ hs))

theorem executes_copySlot (h : m.slots[s']? = some c) (hs : s < m.slots.size) :
    Executes (.copySlot s s') m (m.modifySlot s fun _ => c) := by
  refine ⟨rfl, fun p => ?_⟩
  exact andNext_ok ((bind_ok (getSlot_ok h)).trans (updateSlot_ok _ hs))

theorem executes_loadDouble (h : m.slots[s]? = some c) (hx : x.index < FReg.count) :
    Executes (.loadDouble x s) m (m.setFReg x (cellDouble c)) := by
  refine ⟨rfl, fun p => ?_⟩
  exact andNext_ok ((bind_ok (getSlot_ok h)).trans (setFReg_ok _ hx))

theorem executes_moveDoubleImm (hx : x.index < FReg.count) :
    Executes (.moveDoubleImm x d) m (m.setFReg x d) := by
  refine ⟨rfl, fun p => ?_⟩
  exact andNext_ok (setFReg_ok d hx)

theorem executes_moveDouble (h : m.freg x' = some d) (hx : x.index < FReg.count) :
    Executes (.moveDouble x x') m (m.setFReg x d) := by
  refine ⟨rfl, fun p => ?_⟩
  exact andNext_ok ((bind_ok (getFReg_ok h)).trans (setFReg_ok d hx))

theorem executes_int32ToDouble (h : m.reg r = some w) (hx : x.index < FReg.count) :
    Executes (.int32ToDouble x r) m (m.setFReg x (Double.ofInt32 w.toUInt32.toInt32)) := by
  refine ⟨rfl, fun p => ?_⟩
  exact andNext_ok ((bind_ok (getReg_ok h)).trans (setFReg_ok _ hx))

theorem executes_moveBitsToDouble (h : m.reg r = some w) (hx : x.index < FReg.count) :
    Executes (.moveBitsToDouble x r) m (m.setFReg x ⟨w⟩) := by
  refine ⟨rfl, fun p => ?_⟩
  exact andNext_ok ((bind_ok (getReg_ok h)).trans (setFReg_ok _ hx))

theorem executes_uint32ToDouble (h : m.reg r = some w) (hx : x.index < FReg.count) :
    Executes (.uint32ToDouble x r) m (m.setFReg x (Double.ofNat w.toUInt32.toNat)) := by
  refine ⟨rfl, fun p => ?_⟩
  exact andNext_ok ((bind_ok (getReg_ok h)).trans (setFReg_ok _ hx))

theorem executes_zeroDouble (hx : x.index < FReg.count) :
    Executes (.zeroDouble x) m (m.setFReg x .zero) := by
  refine ⟨rfl, fun p => ?_⟩
  exact andNext_ok (setFReg_ok _ hx)

theorem executes_aluDouble {op : ArithOp} (h : m.freg x = some d) (h' : m.freg x' = some d')
    (hx : x.index < FReg.count) :
    Executes (.aluDouble op x x') m (m.setFReg x (op.onDoubles d d')) := by
  refine ⟨rfl, fun p => ?_⟩
  exact andNext_ok ((bind_ok (getFReg_ok h)).trans ((bind_ok (getFReg_ok h')).trans
    (setFReg_ok _ hx)))

theorem executes_alu {op : AluOp} (h : m.reg r = some w) (h' : m.operand? o = some w')
    (hr : r.index < Reg.count) :
    Executes (.alu op r o) m (m.setReg r (op.apply w.toUInt32 w'.toUInt32).toUInt64) := by
  refine ⟨rfl, fun p => ?_⟩
  exact andNext_ok ((bind_ok (getReg_ok h)).trans ((bind_ok (operand_ok h')).trans
    (setReg_ok _ hr)))

theorem executes_bitNot (h : m.reg r = some w) (hr : r.index < Reg.count) :
    Executes (.bitNot r) m (m.setReg r (~~~w.toUInt32).toUInt64) := by
  refine ⟨rfl, fun p => ?_⟩
  exact andNext_ok ((bind_ok (getReg_ok h)).trans (setReg_ok _ hr))

end Executes

/-! ### A list of instructions -/

/-- The instructions, executed one after the other, take one state to the other. -/
inductive Runs : List Inst → Machine → Machine → Prop where
  | nil (m : Machine) : Runs [] m m
  | cons {i : Inst} {is : List Inst} {m₁ m₂ m₃ : Machine} :
      Executes i m₁ m₂ → Runs is m₂ m₃ → Runs (i :: is) m₁ m₃

theorem runs_append {is js : List Inst} {m₁ m₂ m₃ : Machine} (h : Runs is m₁ m₂)
    (h' : Runs js m₂ m₃) : Runs (is ++ js) m₁ m₃ := by
  induction h with
  | nil => exact h'
  | cons hi _ ih => exact .cons hi (ih h')

theorem runs_singleton {i : Inst} {m m' : Machine} (h : Executes i m m') : Runs [i] m m' :=
  .cons h (.nil m')

/-- Straight-line code works on registers and the memory of the frame only. -/
theorem Runs.isLocal {is : List Inst} {m m' : Machine} (h : Runs is m m') :
    ∀ i ∈ is, i.isLocal := by
  induction h with
  | nil => simp
  | cons hi _ ih =>
    intro i hmem
    rcases List.mem_cons.1 hmem with rfl | hmem
    · exact hi.1
    · exact ih i hmem

end FastPath
