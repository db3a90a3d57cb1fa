import FastPath.Proofs.Generic.Growth
import FastPath.Proofs.Meaning.Bitwise
import FastPath.Proofs.Meaning.Effects

/-!
# Compiled instructions

The code of an instruction has the effects of the instruction. Control ends up behind the code, at
the code of an instruction that is jumped to, or nowhere, because the run is over; in each case the
machine has the values that some effects of the instructions lead to. Where control jumps, all
values are in memory.

## Main results

* `Scene.Performs`: what the code of one or more instructions ensures.
* `CompileM.get_performs` and the rules after it: one for each instruction.
-/

namespace FastPath

open FrameM AsmM Bytecode

attribute [local instance] Cell.written

open Relation (TransGen ReflTransGen)

/-- Memory has the values of the slots, each in the form in which it is. -/
structure Store.Laid (σ : Store) (N sp : Nat) (m : Machine) : Prop where
  cell : ∀ s < sp, m.slots[s]? = some (σ.env s).toCell
  heap : m.heap = σ.heap
  room : N < m.slots.size

/-- The same values, apart from the form of numbers. -/
structure Point.Alike (p q : Point) : Prop where
  pc : p.pc = q.pc
  sp : p.sp = q.sp
  heap : p.store.heap = q.store.heap
  env : ∀ s < q.sp, (p.store.env s).same (q.store.env s)

variable {p : Point} {g : Frame}

theorem Point.Operands.of_supplies {n : Nat} {us : List Value} (hsp : p.sp = g.sp)
    (h : g.Supplies p.store n us) : p.Operands n us :=
  ⟨h.1, fun j u hu => hsp ▸ (h.2 j u hu).same⟩

namespace Scene

variable {S : Scene} {E : Placement} {f : Function} {p q : Point} {n : Nat} {g : Frame}
  {k : Cursor} {i : Instr} {stub : Stub}

/-- Where control may be after an instruction and the `n` ones that follow it. -/
def after (E : Placement) (f : Function) (p : Point) (n : Nat) (k : Cursor) : Scene where
  fast m := (∃ i, f.code[p.pc + n]? = some i ∧ i.isTerminator = false) ∧
    ∃ q, TransGen (Point.Moves f) p q ∧ q.pc = p.pc + n + 1 ∧ q.sp = k.frame.sp ∧
      k.frame.Carries E.room q.store m
  slow _ := False
  exit _ := False
  jump _ _ := False
  pc t m := (∃ j ≤ n, f.jumpTarget? (p.pc + j) = some t) ∧
    ∃ q q' : Point, TransGen (Point.Moves f) p q ∧ q.pc = t ∧ q'.Alike q ∧
      q'.store.Laid E.room q.sp m
  stop o m := ∃ q, ReflTransGen (Point.Moves f) p q ∧ q.Halts f o m.heap

/-- The code of an instruction and the `n` ones that follow it has been emitted, from the frame `g`
on. -/
structure Performs (S : Scene) (E : Placement) (f : Function) (p : Point) (n : Nat)
    (g : Frame) (k : Cursor) : Prop where
  continues : g.Continues k.frame
  sound : k.frame.Sound none
  within : S.Within (after E f p n k)

/-- An instruction that moves values about. -/
theorem performs_of_moves {F : Machine → Prop} (hi : f.code[p.pc]? = some i)
    (ht : i.isTerminator = false) (hmoves : p.Moves f q) (hpc : q.pc = p.pc + 1)
    (hsp : q.sp = k.frame.sp) (hcont : g.Continues k.frame) (hs : k.frame.Sound none)
    (hF : ∀ m, F m → k.frame.Carries E.room q.store m) : (start F).Performs E f p 0 g k where
  continues := hcont
  sound := hs
  within := within_of_fast (T := fun _ _ => False)
    (fun m hm => ⟨⟨i, hi, ht⟩, q, .single hmoves, hpc, hsp, hF m hm⟩) fun _ _ hm => hm.elim

/-- An operator. -/
theorem Yields.performs (hy : S.Yields E p.store (g.answer p.store stub) g (g.sp - stub.uses) k)
    (hi : f.code[p.pc]? = some i) (hstub : CompileM.genericStub? i = some stub)
    (hsp : p.sp = g.sp) :
    S.Performs E f p 0 g k where
  continues := hy.ends.continues
  sound := hy.ends.sound
  within := by
    have ht : i.isTerminator = false := by
      cases i <;> first | rfl | cases hstub
    refine hy.within.trans (within_of_fast (fun m hm => ?_) fun o m hm => ?_)
    · obtain ⟨r, h, ⟨us, hus, hrun⟩, hc⟩ := hm
      refine ⟨⟨i, hi, ht⟩, p.push stub.uses r h,
        .single (.operator hi hstub ⟨us, .of_supplies hsp hus, hrun⟩), rfl, ?_, ?_⟩
      · rw [hy.ends.sp, Point.push, hsp]
      · rwa [Point.push, hsp]
    · obtain ⟨e, hfails, us, hus, hrun⟩ := hm
      exact ⟨p, .refl, .failed (.operatorFails hi hstub ⟨us, .of_supplies hsp hus, hrun⟩) hfails⟩

end Scene

theorem Heap.Grew.literal? {f : Function} {h h' : Heap} {l : Literal} {v : Value}
    (hg : h.Grew h') (hv : f.literal? h l = some v) : f.literal? h' l = some v := by
  cases l with
  | string n =>
    obtain ⟨text, htext, hmap⟩ := Option.bind_eq_some_iff.1 hv
    obtain ⟨s, hs, rfl⟩ := Option.map_eq_some_iff.1 hmap
    simp only [Function.literal?, htext, Option.bind_some, hg.findString? hs,
      Option.map_some]
  | _ => exact hv

namespace Frame

variable {f : Frame}

theorem Sound.pushCopy {s : Slot} (h : f.Sound none) (hs : s < f.sp) : (f.pushCopy s).Sound none :=
  ((h.tracks_sample (D := Cell.written) (k := .unknown) (Nat.le_succ f.sp)).pushCopy hs
    (by simp [size_sample])).sound

theorem Sound.pop (h : f.Sound none) (hs : 0 < f.sp) : f.pop.Sound none :=
  ((h.tracks_sample (D := Cell.written) (k := .unknown) (Nat.le_refl f.sp)).pop hs).sound

end Frame

/-- The compiler is about to compile the instruction at a point. -/
structure Context.Stands (c : Context) (i : Instr) (g : Frame) (p : Point) : Prop where
  pc : p.pc = c.pc
  instr : c.function.code[p.pc]? = some i
  sp : p.sp = g.sp
  argCount : g.argCount = c.function.paramCount
  localCount : g.localCount = c.function.localCount
  sound : g.Sound none
  agrees : g.Agrees p.store
  grew : c.heap.Grew p.store.heap

theorem Context.Stands.varSlot {c : Context} {i : Instr} (h : c.Stands i g p)
    (x : Var) : g.varSlot x = c.function.slot x := by
  cases x with
  | arg i => rfl
  | loc i => simp only [Frame.varSlot, Function.slot, h.argCount]

namespace AsmM

variable {E : Placement} {k : Cursor} {S : Scene}

theorem lift_update (g : Frame → Frame) :
    (liftM (update g) : AsmM Unit) = updateFrame g := by
  funext a
  rw [lift_run]
  rfl

end AsmM

namespace CompileM

variable {E : Placement} {c : Context} {i : Instr} {k : Cursor} {S : Scene} {p q : Point}

/-! ### Values that move -/

variable {g : Frame → Frame} {l : Literal} {x : CompileM Emitted}

/-- A change of the frame that emits no code. -/
theorem update_performs (hst : c.Stands i k.frame p) (ht : i.isTerminator = false)
    (hcont : k.frame.Continues (g k.frame)) (hsound : (g k.frame).Sound none)
    (hmoves : p.Moves c.function q) (hpc : q.pc = p.pc + 1) (hsp : q.sp = (g k.frame).sp)
    (hg : ∀ m, (g k.frame).maxSp ≤ E.room →
      k.frame.Carries E.room p.store m → (g k.frame).Carries E.room q.store m) :
    Emits E (updateFrame g) k (.start (k.frame.Carries E.room p.store))
      fun _ k' S' => S'.Performs E c.function p 0 k.frame k' :=
  emits_updateFrame (F := (g k.frame).Carries E.room q.store) hcont.maxSp
    (fun hmax m hm => hg m hmax hm)
    (Scene.performs_of_moves hst.instr ht hmoves hpc hsp hcont hsound fun _ => id)

theorem produces_literalValue {Q : Value → Cursor → Scene → Prop}
    (h : ∀ v, c.function.literal? c.heap l = some v → Q v k S) :
    Produces E c (literalValue l) k S Q := by
  unfold literalValue
  split
  · exact produces_pure (h _ rfl)
  · exact produces_pure (h _ rfl)
  · exact produces_pure (h _ rfl)
  · exact produces_pure (h _ rfl)
  · next n =>
    refine produces_read ?_
    split
    · next d hd => exact produces_pure (h _ (by rw [Function.literal?, hd]; rfl))
    · exact produces_fail
  · next n =>
    refine produces_read ?_
    split
    · exact produces_fail
    · next text htext =>
      split
      · next s hs =>
        exact produces_pure
          (h _ (by rw [Function.literal?, htext, Option.bind_some, hs]; rfl))
      · exact produces_throw

/-- An instruction that is compiled by itself. -/
theorem single_performs (h : Produces E c x k S fun _ k' S' =>
      S'.Performs E c.function p 0 k.frame k') :
    Produces E c (single x) k S fun r k' S' => S'.Performs E c.function p r.2 k.frame k' :=
  h.bind fun _ _ _ hp => produces_pure hp

theorem frameOnly_performs {x : FrameM Unit} (h : Emits E (liftM x) k S fun _ k' S' =>
      S'.Performs E c.function p 0 k.frame k') :
    Produces E c (frameOnly x) k S fun r k' S' =>
      S'.Performs E c.function p r.2 k.frame k' :=
  h.next fun _ _ _ hp => produces_pure hp

/-- A literal is pushed. -/
theorem literal_performs (hst : c.Stands (.push l) k.frame p) :
    Produces E c (emitInline (.push l)) k (.start (k.frame.Carries E.room p.store))
      fun r k' S' => S'.Performs E c.function p r.2 k.frame k' := by
  refine single_performs (produces_bind (produces_literalValue fun v hv => ?_))
  refine (update_performs (q := p.push 0 v p.store.heap) hst rfl
    ⟨rfl, rfl, Nat.le_max_left _ _, rfl, rfl⟩
    (hst.sound.pushConstant v) (.literal hst.instr (hst.grew.literal? hv)) rfl
    (congrArg (· + 1) hst.sp) fun m hmax hm => ?_).next fun _ _ _ hp => produces_pure hp
  have hroom : k.frame.sp < m.slots.size :=
    Nat.lt_of_le_of_lt (Nat.le_trans (Nat.le_of_succ_le (Nat.le_max_right _ _)) hmax) hm.room
  rw [Point.push, Nat.sub_zero, hst.sp]
  exact hm.pushConstant v hroom

/-- A copy of a slot. -/
theorem copy_performs {s : Slot} (hst : c.Stands i k.frame p) (ht : i.isTerminator = false)
    (hg : g k.frame = k.frame.pushCopy s) (hs : s < k.frame.sp)
    (hmoves : p.Moves c.function (p.push 0 (p.store.env s) p.store.heap)) :
    Emits E (liftM (update g)) k (.start (k.frame.Carries E.room p.store))
      fun _ k' S' => S'.Performs E c.function p 0 k.frame k' := by
  rw [lift_update]
  refine update_performs (q := p.push 0 (p.store.env s) p.store.heap) hst ht ?_ ?_ hmoves rfl ?_
    fun m hmax hm => ?_
  · rw [hg]
    exact Frame.continues_pushCopy _ _
  · rw [hg]
    exact hst.sound.pushCopy hs
  · rw [hg, Frame.sp_pushCopy, Point.push, hst.sp]
    rfl
  · rw [hg, Frame.maxSp_pushCopy] at hmax
    have hroom : k.frame.sp < m.slots.size :=
      Nat.lt_of_le_of_lt (Nat.le_trans (Nat.le_of_succ_le (Nat.le_max_right _ _)) hmax) hm.room
    rw [hg, Point.push, Nat.sub_zero, hst.sp]
    exact ⟨hm.tracks.pushCopy hs hroom, hm.heap, hm.room⟩

theorem get_performs {x : Var} (hst : c.Stands (.get x) k.frame p)
    (hx : c.function.slot x < k.frame.sp) :
    Produces E c (emitInline (.get x)) k (.start (k.frame.Carries E.room p.store))
      fun r k' S' => S'.Performs E c.function p r.2 k.frame k' :=
  frameOnly_performs (copy_performs hst rfl (by rw [Frame.pushVar, hst.varSlot]) hx
    (.get hst.instr))

/-! ### The end of a run -/

/-- The source of a value, on whatever machine the values are. -/
theorem emits_source {σ : Store} {s : Slot} {Q : Source → Cursor → Scene → Prop}
    (hs : k.frame.Sound none) (hlt : s < k.frame.sp)
    (h : ∀ src f' l, k.frame.SameView f' → f'.Sound none → Q src ⟨f', l, k.slow⟩ (.start fun m =>
      f'.Carries E.room σ m ∧ ∃ v, (m.source? src).map Cell.decode = some (.ok v) ∧
      v.same (σ.env s))) :
    Emits E (monadLift (source s)) k (.start (k.frame.Carries E.room σ)) Q := by
  refine emits_lift (P := fun _ f' => k.frame.SameView f' ∧ f'.Sound none)
    (F := fun src f' m => f'.Carries E.room σ m ∧
      ∃ v : Value, (m.source? src).map Cell.decode = some (.ok v) ∧ v.same (σ.env s))
    ?_ (fun _ _ h => h.1.maxSp.ge) ?_ ?_
  · obtain ⟨m, env, htr⟩ := hs.exists_tracks
    refine ⟨m, (source_ensures htr (Frame.live_of_lt hlt)).mono ?_⟩
    rintro src f' m' ⟨hl, -⟩
    exact ⟨hl.view, hl.tracks.sound⟩
  · rintro src f' - - m hm
    refine (source_ensures hm.tracks (Frame.live_of_lt hlt)).mono ?_
    rintro src f' m' ⟨hl, -, cell, hcell, v, hv, hsame⟩
    exact ⟨⟨hl.tracks, hl.keeps.world.heap.trans hm.heap, hl.keeps.world.size ▸ hm.room⟩, v,
      by rw [hcell, Option.map_some, hv], hsame⟩
  · rintro src f' l ⟨hview, hs'⟩
    exact h src f' l hview hs'

/-- A return gives the value at the top of the stack. -/
theorem ret_performs (hst : c.Stands .ret k.frame p)
    (hsp : 1 ≤ k.frame.sp) :
    Produces E c (emitInline .ret) k (.start (k.frame.Carries E.room p.store))
      fun r k' S' => S'.Performs E c.function p r.2 k.frame k' := by
  have hlt : k.frame.peek 1 < k.frame.sp := Frame.peek_lt Nat.one_pos hsp
  refine single_performs (produces_bind (Emits.lift (emits_frame ?_)))
  refine produces_bind (Emits.lift (emits_source hst.sound hlt fun src f l hview hs => ?_))
  refine produces_bind (Emits.lift (emits_ret
    (T := fun o m => p.Halts c.function o m.heap) ?_ (fun _ _ hm => hm.elim) ?_))
  · rintro m ⟨hm, v, hv, hsame⟩
    obtain ⟨cell, hcell, hdecode⟩ := Option.map_eq_some_iff.1 hv
    refine ⟨cell, v, hcell, hdecode, .done ?_⟩
    rw [hm.heap]
    refine .ret hst.instr ?_
    rwa [Point.top, hst.sp]
  refine produces_bind (Emits.lift (emits_lift (P := fun _ f' => f.SameView f' ∧
    f'.Sound none) (F := fun _ _ _ => False) ?_ (fun _ _ h => h.1.maxSp.ge)
    (fun _ _ _ _ _ hm => hm.elim) ?_))
  · obtain ⟨m, env, htr⟩ := hs.exists_tracks
    refine ⟨m, (unpinSource_ensures htr src).mono ?_⟩
    rintro - f' m' h
    exact ⟨h.view, h.tracks.sound⟩
  rintro - f' l' ⟨hview', hs'⟩
  refine produces_bind (Emits.lift (emits_updateFrame (F := fun _ => False)
    (Nat.le_refl _) (fun _ _ hm => hm.elim) (produces_pure ?_)))
  have hsp' : 0 < f'.sp := by
    rw [hview'.sp, hview.sp]
    exact hsp
  exact {
    continues := (hview.trans hview').continues.trans (Frame.continues_pop f')
    sound := hs'.pop hsp'
    within := Scene.within_of_fast (fun _ hm => hm.elim) fun o m hm => ⟨p, .refl, hm⟩ }

/-! ### Operators -/

/-- An operator that yields what its stub would. -/
theorem operator_performs {stub : Stub} (hst : c.Stands i k.frame p)
    (hstub : genericStub? i = some stub)
    (hx : Produces E c x k (.start (k.frame.Carries E.room p.store)) fun _ k' S' =>
      S'.Yields E p.store (k.frame.answer p.store stub) k.frame (k.frame.sp - stub.uses) k') :
    Produces E c (single x) k (.start (k.frame.Carries E.room p.store))
      fun r k' S' => S'.Performs E c.function p r.2 k.frame k' :=
  single_performs (hx.mono fun _ _ _ hy => hy.performs hst.instr hstub hst.sp)

theorem bit_performs {op : BitOp} (hst : c.Stands (.bit op) k.frame p) (hsp : 2 ≤ k.frame.sp)
    (htrust : c.Trusts E (k.frame.answer p.store (.bit op))) :
    Produces E c (emitInline (.bit op)) k (.start (k.frame.Carries E.room p.store))
      fun r k' S' => S'.Performs E c.function p r.2 k.frame k' :=
  operator_performs hst rfl
    (bitOp_produces htrust hst.agrees (Scene.loading_start hst.sound) hsp)

theorem bitNot_performs (hst : c.Stands .bitNot k.frame p) (hsp : 1 ≤ k.frame.sp)
    (htrust : c.Trusts E (k.frame.answer p.store .bitNot)) :
    Produces E c (emitInline .bitNot) k (.start (k.frame.Carries E.room p.store))
      fun r k' S' => S'.Performs E c.function p r.2 k.frame k' :=
  operator_performs hst rfl
    (bitNot_produces htrust hst.agrees (Scene.loading_start hst.sound) hsp)

end CompileM

end FastPath
