import FastPath.Proofs.Machine.Block

/-!
# Registers that have contents

A call leaves registers without contents, and reading one of those is a fault. Which
registers have contents at a point of the code does not depend on values, so it can be
tracked statically: a `Shape` is a set of registers, `Inst.Reads` says that an instruction
only reads registers of a shape and slots of the frame, and `Inst.after` is the shape that
it leaves.

The shape with every register belongs to no machine, since register numbers are not
bounded. It stands for code that is not reached.
-/

namespace FastPath

/-! ### Shapes -/

/-- A set of registers that have contents. -/
structure Shape where
  reg : Reg → Prop
  freg : FReg → Prop

namespace Shape

/-- No register has contents. -/
def none : Shape := ⟨fun _ => False, fun _ => False⟩

/-- Every register has contents, which never happens. -/
def all : Shape := ⟨fun _ => True, fun _ => True⟩

/-- Only the register with the word that a stub returned. -/
def result : Shape := ⟨(· = .result), fun _ => False⟩

/-- The first shape has the registers of the second. -/
structure Covers (P Q : Shape) : Prop where
  reg : ∀ r, Q.reg r → P.reg r
  freg : ∀ r, Q.freg r → P.freg r

/-- One more register. -/
def withReg (P : Shape) (r : Reg) : Shape := ⟨fun r' => r' = r ∨ P.reg r', P.freg⟩

/-- One more double register. -/
def withFReg (P : Shape) (r : FReg) : Shape := ⟨P.reg, fun r' => r' = r ∨ P.freg r'⟩

/-- One more register, if there is one. -/
def withReg? (P : Shape) : Option Reg → Shape
  | some r => P.withReg r
  | Option.none => P

theorem Covers.refl (P : Shape) : P.Covers P := ⟨fun _ => id, fun _ => id⟩

variable {P Q : Shape}

theorem Covers.trans {R : Shape} (h : P.Covers Q) (h' : Q.Covers R) : P.Covers R :=
  ⟨fun r hr => h.reg r (h'.reg r hr), fun r hr => h.freg r (h'.freg r hr)⟩

theorem all_covers (P : Shape) : all.Covers P := ⟨fun _ _ => trivial, fun _ _ => trivial⟩

theorem covers_none (P : Shape) : P.Covers none := ⟨fun _ h => h.elim, fun _ h => h.elim⟩

theorem withReg_covers (P : Shape) (r : Reg) : (P.withReg r).Covers P :=
  ⟨fun _ => .inr, fun _ => id⟩

theorem withFReg_covers (P : Shape) (r : FReg) : (P.withFReg r).Covers P :=
  ⟨fun _ => id, fun _ => .inr⟩

theorem withReg?_covers (P : Shape) (r : Option Reg) : (P.withReg? r).Covers P := by
  cases r with
  | none => exact .refl P
  | some r => exact P.withReg_covers r

theorem Covers.withReg (h : P.Covers Q) (r : Reg) : (P.withReg r).Covers (Q.withReg r) :=
  ⟨fun r' hr => hr.imp id (h.reg r'), h.freg⟩

theorem Covers.withFReg (h : P.Covers Q) (r : FReg) : (P.withFReg r).Covers (Q.withFReg r) :=
  ⟨h.reg, fun r' hr => hr.imp id (h.freg r')⟩

theorem Covers.withReg? (h : P.Covers Q) (r : Option Reg) :
    (P.withReg? r).Covers (Q.withReg? r) := by
  cases r with
  | none => exact h
  | some r => exact h.withReg r

end Shape

/-- The registers of a machine that have contents. -/
def Machine.shape (m : Machine) : Shape := ⟨fun r => (m.reg r).isSome, fun r => (m.freg r).isSome⟩

/-! ### What instructions read -/

/-- The operand is in a register of the shape or among the first `n` slots. -/
def Operand.Reads (n : Nat) (P : Shape) : Operand → Prop
  | .reg r => P.reg r
  | .imm _ => True
  | .tag s | .payload s => s < n

/-- The value is in registers of the shape. -/
def Source.Reads (P : Shape) : Source → Prop
  | .constant _ => True
  | .typed _ payload => P.reg payload
  | .regs tag payload => P.reg tag ∧ P.reg payload
  | .double r => P.freg r

/-- The index is in a register of the shape. -/
def IndexKey.Reads (P : Shape) : IndexKey → Prop
  | .constant _ => True
  | .reg r => P.reg r

/-- A register that exists. -/
def Reg.Valid (r : Reg) : Prop := r.index < Reg.count

/-- A double register that exists. -/
def FReg.Valid (r : FReg) : Prop := r.index < FReg.count

namespace Guard

/-- The guard reads registers of the shape and the first `n` slots, and can be executed. -/
def Reads (n : Nat) (P : Shape) : Guard → Prop
  | always | epoch _ => True
  | compare _ lhs rhs => lhs.Reads n P ∧ rhs.Reads n P
  | test _ lhs mask => P.reg lhs ∧ mask.Reads n P
  | compareDouble _ lhs rhs => P.freg lhs ∧ P.freg rhs
  | checked _ dst src => (P.reg dst ∧ dst.Valid) ∧ src.Reads n P
  | truncate src dst | convert src dst => P.freg src ∧ dst.Valid
  | objectClass cond obj _ => (cond = .equal ∨ cond = .notEqual) ∧ P.reg obj
  | extent _ obj key _ | hole obj key => P.reg obj ∧ key.Reads P
  | loadPacked obj key tag payload =>
    (P.reg obj ∧ key.Reads P) ∧ (∀ r, tag = some r → r.Valid) ∧ payload.Valid

/-- The registers that have contents after the guard has passed. -/
def after (P : Shape) : Guard → Shape
  | always => .all
  | truncate _ dst | convert _ dst => P.withReg dst
  | loadPacked _ _ tag payload => (P.withReg? tag).withReg payload
  | _ => P

end Guard

namespace Inst

/-- The instruction reads registers of the shape and the first `n` slots, and names
registers that exist. -/
def Reads (n : Nat) (P : Shape) : Inst → Prop
  | move dst src => src.Reads n P ∧ dst.Valid
  | storeTag slot src | storePayload slot src => src.Reads n P ∧ slot < n
  | storeValue slot src => src.Reads P ∧ slot < n
  | copySlot dst src => dst < n ∧ src < n
  | loadDouble dst slot => slot < n ∧ dst.Valid
  | moveDoubleImm dst _ | zeroDouble dst => dst.Valid
  | moveDouble dst src => P.freg src ∧ dst.Valid
  | moveBitsToDouble dst src | int32ToDouble dst src | uint32ToDouble dst src =>
    P.reg src ∧ dst.Valid
  | aluDouble _ dst src => (P.freg dst ∧ P.freg src) ∧ dst.Valid
  | alu _ dst src => (P.reg dst ∧ src.Reads n P) ∧ dst.Valid
  | bitNot dst => P.reg dst ∧ dst.Valid
  | set _ lhs rhs dst => (P.reg lhs ∧ rhs.Reads n P) ∧ dst.Valid
  | setDouble _ lhs rhs dst => (P.freg lhs ∧ P.freg rhs) ∧ dst.Valid
  | loadExtent dst obj _ => P.reg obj ∧ dst.Valid
  | storeExtent obj _ src => P.reg obj ∧ src.Reads n P
  | loadElement obj key tag payload =>
    (P.reg obj ∧ key.Reads P) ∧ (∀ r, tag = some r → r.Valid) ∧ payload.Valid
  | storeElement obj key value => (P.reg obj ∧ key.Reads P) ∧ value.Reads P
  | loadNamed obj _ tag payload => P.reg obj ∧ (∀ r, tag = some r → r.Valid) ∧ payload.Valid
  | storeNamed obj _ value => P.reg obj ∧ value.Reads P
  | callStub _ _ _ | callCache _ _ _ => True
  | branch guard _ => guard.Reads n P
  | ret value => value.Reads P

/-- The registers that have contents after the instruction, if control goes on. -/
def after (P : Shape) : Inst → Shape
  | move dst _ | alu _ dst _ | bitNot dst | set _ _ _ dst | setDouble _ _ _ dst
  | loadExtent dst _ _ => P.withReg dst
  | loadDouble dst _ | moveDoubleImm dst _ | zeroDouble dst | moveDouble dst _
  | moveBitsToDouble dst _ | int32ToDouble dst _ | uint32ToDouble dst _ | aluDouble _ dst _ =>
    P.withFReg dst
  | loadElement _ _ tag payload | loadNamed _ _ tag payload => (P.withReg? tag).withReg payload
  | callStub _ _ _ => .result
  | callCache _ _ _ => .none
  | branch guard _ => guard.after P
  | ret _ => .all
  | storeTag _ _ | storePayload _ _ | storeValue _ _ | copySlot _ _ | storeExtent _ _ _
  | storeElement _ _ _ | storeNamed _ _ _ => P

end Inst

/-! ### What caches read -/

/-- The key is in registers of the shape, and its tag is known. -/
def CacheKey.Reads (P : Shape) : CacheKey → Prop
  | .constant _ => True
  | .reg (some tag) payload _ => P.reg tag ∧ P.reg payload
  | .reg none payload known => known.isSome ∧ P.reg payload

/-- A learned case reads and writes what the layout says; the first shape is that of the class
guard, the second that of the position after the access. -/
def CacheLayout.Hits {α : Type} (c : CacheLayout α) (S T : Shape) : Prop :=
  match c.kind with
  | .get => ∃ tag payload, c.result = some (tag, payload) ∧ tag.Valid ∧ payload.Valid ∧
      ((S.withReg tag).withReg payload).Covers T
  | .set => ∃ value, c.value = some value ∧ value.Reads S ∧ S.Covers T

variable {α : Type} {c : CacheLayout α} {S T : Shape}

theorem CacheLayout.Hits.read (h : c.Hits S T) (hc : c.kind = .get) :
    ∃ tag payload, c.result = some (tag, payload) ∧ tag.Valid ∧
      payload.Valid ∧ ((S.withReg tag).withReg payload).Covers T := by
  rw [Hits, hc] at h
  exact h

theorem CacheLayout.Hits.write (h : c.Hits S T) (hc : c.kind = .set) :
    ∃ value, c.value = some value ∧ value.Reads S ∧ S.Covers T := by
  rw [Hits, hc] at h
  exact h

/-! ### More registers do no harm -/

section Mono

variable {n n' : Nat} {P Q : Shape}

theorem Operand.Reads.mono {o : Operand} (h : o.Reads n Q) (hn : n ≤ n') (hP : P.Covers Q) :
    o.Reads n' P := by
  cases o with
  | reg r => exact hP.reg r h
  | imm w => trivial
  | tag s | payload s => exact Nat.lt_of_lt_of_le h hn

theorem Source.Reads.mono {s : Source} (h : s.Reads Q) (hP : P.Covers Q) : s.Reads P := by
  cases s with
  | constant c => trivial
  | typed t r => exact hP.reg r h
  | regs t r => exact ⟨hP.reg t h.1, hP.reg r h.2⟩
  | double r => exact hP.freg r h

theorem IndexKey.Reads.mono {k : IndexKey} (h : k.Reads Q) (hP : P.Covers Q) : k.Reads P := by
  cases k with
  | constant i => trivial
  | reg r => exact hP.reg r h

theorem CacheKey.Reads.mono {k : CacheKey} (h : k.Reads Q) (hP : P.Covers Q) : k.Reads P := by
  match k, h with
  | .constant _, _ => trivial
  | .reg (some _) _ _, h => exact ⟨hP.reg _ h.1, hP.reg _ h.2⟩
  | .reg none _ _, h => exact ⟨h.1, hP.reg _ h.2⟩

theorem CacheLayout.Hits.mono {α : Type} {c : CacheLayout α} {S S' T T' : Shape} (h : c.Hits S T)
    (hS : S'.Covers S) (hT : T.Covers T') : c.Hits S' T' := by
  unfold CacheLayout.Hits at h ⊢
  split at h
  · obtain ⟨tag, payload, hresult, htag, hpayload, hc⟩ := h
    exact ⟨tag, payload, hresult, htag, hpayload, (((hS.withReg _).withReg _).trans hc).trans hT⟩
  · obtain ⟨value, hvalue, hreads, hc⟩ := h
    exact ⟨value, hvalue, hreads.mono hS, (hS.trans hc).trans hT⟩

variable {g : Guard}

theorem Guard.Reads.mono (h : g.Reads n Q) (hn : n ≤ n') (hP : P.Covers Q) : g.Reads n' P := by
  cases g <;> simp only [Guard.Reads] at h ⊢ <;>
    grind [Operand.Reads.mono, IndexKey.Reads.mono, Shape.Covers.reg, Shape.Covers.freg]

theorem Inst.Reads.mono {i : Inst} (h : i.Reads n Q) (hn : n ≤ n') (hP : P.Covers Q) :
    i.Reads n' P := by
  cases i <;> simp only [Inst.Reads] at h ⊢ <;>
    grind [Operand.Reads.mono, Source.Reads.mono, IndexKey.Reads.mono, Guard.Reads.mono,
      Shape.Covers.reg, Shape.Covers.freg]

theorem Guard.after_covers (hP : P.Covers Q) : (g.after P).Covers (g.after Q) := by
  cases g <;> simp only [Guard.after]
  case always => exact .refl _
  case truncate => exact hP.withReg _
  case convert => exact hP.withReg _
  case loadPacked => exact (hP.withReg? _).withReg _
  all_goals exact hP

theorem Inst.after_covers {i : Inst} (hP : P.Covers Q) : (i.after P).Covers (i.after Q) := by
  cases i <;> simp only [Inst.after]
  case branch => exact Guard.after_covers hP
  case loadElement => exact (hP.withReg? _).withReg _
  case loadNamed => exact (hP.withReg? _).withReg _
  all_goals first | exact hP | exact hP.withReg _ | exact hP.withFReg _ | exact .refl _

end Mono

/-! ### What an instruction that executes has read -/

namespace MachineM

variable {α β : Type} {p : Position} {m m' : Machine}

theorem bind_ok_inv {x : MachineM α} {k : α → MachineM β} {b : β}
    (h : (x >>= k) p m = .ok b m') : ∃ a m₁, x p m = .ok a m₁ ∧ k a p m₁ = .ok b m' := by
  change EStateM.bind (x p) (fun a => k a p) m = _ at h
  unfold EStateM.bind at h
  split at h
  · next a m₁ hx => exact ⟨a, m₁, hx, h⟩
  · cases h

theorem andNext_inv {x : MachineM Unit} {c : Control} (h : andNext x p m = .ok c m') :
    x p m = .ok () m' := by
  obtain ⟨a, m₁, hx, hk⟩ := bind_ok_inv h
  cases hk
  exact hx

/-- If the action succeeds, it has changed nothing, and the condition holds. -/
def Needs (x : MachineM α) (p : Position) (m : Machine) (R : Prop) : Prop :=
  ∀ a m', x p m = .ok a m' → m' = m ∧ R

theorem Needs.bind {x : MachineM α} {k : α → MachineM β} {b : β} {R : Prop} (hx : Needs x p m R)
    (h : (x >>= k) p m = .ok b m') : R ∧ ∃ a, k a p m = .ok b m' := by
  obtain ⟨a, m₁, ha, hk⟩ := bind_ok_inv h
  obtain ⟨rfl, hr⟩ := hx a m₁ ha
  exact ⟨hr, a, hk⟩

theorem needs_getReg (r : Reg) : Needs (getReg r) p m (m.shape.reg r) := by
  intro w m' h
  unfold getReg at h
  rw [get_bind] at h
  change m' = m ∧ (m.reg r).isSome
  unfold Machine.reg
  rcases hv : m.regs[r.index]? with _ | _ | v <;> rw [hv] at h <;> cases h
  exact ⟨rfl, rfl⟩

theorem needs_getFReg (r : FReg) : Needs (getFReg r) p m (m.shape.freg r) := by
  intro w m' h
  unfold getFReg at h
  rw [get_bind] at h
  change m' = m ∧ (m.freg r).isSome
  unfold Machine.freg
  rcases hv : m.fregs[r.index]? with _ | _ | v <;> rw [hv] at h <;> cases h
  exact ⟨rfl, rfl⟩

theorem needs_getSlot (s : Slot) : Needs (getSlot s) p m (s < m.slots.size) := by
  intro c m' h
  unfold getSlot at h
  rw [get_bind] at h
  rcases hv : m.slots[s]? with _ | v <;> rw [hv] at h <;> cases h
  exact ⟨rfl, (Array.getElem?_eq_some_iff.1 hv).1⟩

theorem needs_operand (o : Operand) : Needs (operand o) p m (o.Reads m.slots.size m.shape) := by
  intro w m' h
  cases o with
  | reg r => exact needs_getReg r w m' h
  | imm n =>
    cases h
    exact ⟨rfl, trivial⟩
  | tag s | payload s =>
    obtain ⟨hs, c, hk⟩ := (needs_getSlot s).bind h
    cases hk
    exact ⟨rfl, hs⟩

/-- Storing a value needs the registers of its parts. -/
theorem needs_source (s : Source) : Needs (source s) p m (s.Reads m.shape) := by
  intro c m' h
  cases s with
  | constant c' =>
    cases h
    exact ⟨rfl, trivial⟩
  | typed t r =>
    obtain ⟨hr, w, hk⟩ := (needs_getReg r).bind h
    cases hk
    exact ⟨rfl, hr⟩
  | regs t r =>
    obtain ⟨ht, w, hk⟩ := (needs_getReg t).bind h
    obtain ⟨hr, w', hk⟩ := (needs_getReg r).bind hk
    cases hk
    exact ⟨rfl, ht, hr⟩
  | double r =>
    obtain ⟨hr, d, hk⟩ := (needs_getFReg r).bind h
    cases hk
    exact ⟨rfl, hr⟩

/-- What a write leaves: no more than its destination has got contents. -/
theorem setReg_inv {r : Reg} {w : UInt64} (h : setReg r w p m = .ok () m') :
    r.Valid ∧ (m.shape.withReg r).Covers m'.shape ∧ m'.slots.size = m.slots.size := by
  unfold setReg at h
  split at h
  · next hr =>
    cases h
    refine ⟨hr, ⟨fun r' hr' => ?_, fun _ => id⟩, rfl⟩
    change ((m.setReg r w).reg r').isSome at hr'
    rw [Machine.reg_setReg] at hr'
    split at hr'
    · next h => exact .inl h.1.symm
    · exact .inr hr'
  · cases h

theorem setFReg_inv {r : FReg} {d : Double} (h : setFReg r d p m = .ok () m') :
    r.Valid ∧ (m.shape.withFReg r).Covers m'.shape ∧ m'.slots.size = m.slots.size := by
  unfold setFReg at h
  split at h
  · next hr =>
    cases h
    refine ⟨hr, ⟨fun _ => id, fun r' hr' => ?_⟩, rfl⟩
    change ((m.setFReg r d).freg r').isSome at hr'
    rw [Machine.freg_setFReg] at hr'
    split at hr'
    · next h => exact .inl h.1.symm
    · exact .inr hr'
  · cases h

theorem updateSlot_inv {s : Slot} {g : Cell → Cell} (h : updateSlot s g p m = .ok () m') :
    s < m.slots.size ∧ m.shape.Covers m'.shape ∧ m'.slots.size = m.slots.size := by
  unfold updateSlot at h
  rw [get_bind] at h
  split at h
  · next hs =>
    cases h
    exact ⟨hs, ⟨fun _ => id, fun _ => id⟩, by simp⟩
  · cases h

end MachineM

open MachineM in
/-- An instruction that executes has read only what has contents, and leaves contents only
where it says. -/
theorem Executes.reads {m m' : Machine} {i : Inst} (h : Executes i m m') :
    i.Reads m.slots.size m.shape ∧ (i.after m.shape).Covers m'.shape ∧
      m'.slots.size = m.slots.size := by
  obtain ⟨hlocal, hx⟩ := h
  have hx := hx ⟨default, default, false, 0⟩
  cases i with
  | move dst src =>
    obtain ⟨hr, w, hk⟩ := (needs_operand src).bind (andNext_inv hx)
    obtain ⟨hv, hrest⟩ := setReg_inv hk
    exact ⟨⟨hr, hv⟩, hrest⟩
  | storeTag slot src | storePayload slot src =>
    obtain ⟨hr, w, hk⟩ := (needs_operand src).bind (andNext_inv hx)
    obtain ⟨hs, hrest⟩ := updateSlot_inv hk
    exact ⟨⟨hr, hs⟩, hrest⟩
  | storeValue slot src =>
    obtain ⟨hr, c, hk⟩ := (needs_source src).bind (andNext_inv hx)
    obtain ⟨hs, hrest⟩ := updateSlot_inv hk
    exact ⟨⟨hr, hs⟩, hrest⟩
  | copySlot dst src =>
    obtain ⟨hr, c, hk⟩ := (needs_getSlot src).bind (andNext_inv hx)
    obtain ⟨hs, hrest⟩ := updateSlot_inv hk
    exact ⟨⟨hs, hr⟩, hrest⟩
  | loadDouble dst slot =>
    obtain ⟨hr, c, hk⟩ := (needs_getSlot slot).bind (andNext_inv hx)
    obtain ⟨hv, hrest⟩ := setFReg_inv hk
    exact ⟨⟨hr, hv⟩, hrest⟩
  | moveDoubleImm dst value | zeroDouble dst => exact setFReg_inv (andNext_inv hx)
  | moveDouble dst src =>
    obtain ⟨hr, d, hk⟩ := (needs_getFReg src).bind (andNext_inv hx)
    obtain ⟨hv, hrest⟩ := setFReg_inv hk
    exact ⟨⟨hr, hv⟩, hrest⟩
  | moveBitsToDouble dst src | int32ToDouble dst src | uint32ToDouble dst src =>
    obtain ⟨hr, w, hk⟩ := (needs_getReg src).bind (andNext_inv hx)
    obtain ⟨hv, hrest⟩ := setFReg_inv hk
    exact ⟨⟨hr, hv⟩, hrest⟩
  | aluDouble op dst src =>
    obtain ⟨hr, d, hk⟩ := (needs_getFReg dst).bind (andNext_inv hx)
    obtain ⟨hr', d', hk⟩ := (needs_getFReg src).bind hk
    obtain ⟨hv, hrest⟩ := setFReg_inv hk
    exact ⟨⟨⟨hr, hr'⟩, hv⟩, hrest⟩
  | alu op dst src =>
    obtain ⟨hr, w, hk⟩ := (needs_getReg dst).bind (andNext_inv hx)
    obtain ⟨hr', w', hk⟩ := (needs_operand src).bind hk
    obtain ⟨hv, hrest⟩ := setReg_inv hk
    exact ⟨⟨⟨hr, hr'⟩, hv⟩, hrest⟩
  | bitNot dst =>
    obtain ⟨hr, w, hk⟩ := (needs_getReg dst).bind (andNext_inv hx)
    obtain ⟨hv, hrest⟩ := setReg_inv hk
    exact ⟨⟨hr, hv⟩, hrest⟩
  | set cond lhs rhs dst =>
    obtain ⟨hr, w, hk⟩ := (needs_getReg lhs).bind (andNext_inv hx)
    obtain ⟨hr', w', hk⟩ := (needs_operand rhs).bind hk
    obtain ⟨hv, hrest⟩ := setReg_inv hk
    exact ⟨⟨⟨hr, hr'⟩, hv⟩, hrest⟩
  | setDouble cond lhs rhs dst =>
    obtain ⟨hr, d, hk⟩ := (needs_getFReg lhs).bind (andNext_inv hx)
    obtain ⟨hr', d', hk⟩ := (needs_getFReg rhs).bind hk
    obtain ⟨hv, hrest⟩ := setReg_inv hk
    exact ⟨⟨⟨hr, hr'⟩, hv⟩, hrest⟩
  | _ => cases hlocal

/-! ### Straight-line code -/

/-- The instructions, one after the other, read only registers that have contents when they
are reached, starting from one shape and ending in another. -/
inductive Block (n : Nat) : List Inst → Shape → Shape → Prop where
  | nil {P Q : Shape} : P.Covers Q → Block n [] P Q
  | cons {i : Inst} {is : List Inst} {P Q : Shape} :
      i.isLocal → i.Reads n P → Block n is (i.after P) Q → Block n (i :: is) P Q

namespace Block

variable {n n' : Nat} {is js : List Inst} {P P' Q Q' R : Shape}

theorem mono (h : Block n is P Q) (hn : n ≤ n') (hP : P'.Covers P) (hQ : Q.Covers Q') :
    Block n' is P' Q' := by
  induction h generalizing P' with
  | nil h => exact .nil ((hP.trans h).trans hQ)
  | cons hl hr _ ih => exact .cons hl (hr.mono hn hP) (ih (Inst.after_covers hP) hQ)

theorem isLocal (h : Block n is P Q) : ∀ i ∈ is, i.isLocal := by
  induction h with
  | nil => exact nofun
  | cons hl _ _ ih =>
    intro i hi
    rcases List.mem_cons.1 hi with rfl | hi
    · exact hl
    · exact ih i hi

end Block

/-- Straight-line code that runs on one machine, runs on every machine of that shape. -/
theorem Runs.block {is : List Inst} {m m' : Machine} (h : Runs is m m') :
    Block m.slots.size is m.shape m'.shape ∧ m'.slots.size = m.slots.size := by
  induction h with
  | nil m => exact ⟨.nil (.refl _), rfl⟩
  | cons hi _ ih =>
    obtain ⟨hr, ha, hsize⟩ := hi.reads
    obtain ⟨hb, hsize'⟩ := ih
    rw [hsize] at hb
    exact ⟨.cons hi.1 hr (hb.mono (Nat.le_refl _) ha (.refl _)), hsize'.trans hsize⟩

end FastPath
