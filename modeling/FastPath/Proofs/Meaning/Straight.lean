import FastPath.Proofs.Meaning.Composition

/-!
# Functions without jumps

In a function without jumps the code of each instruction falls into the code of the next one, and
the code of the last one ends the run. No instruction of the code is executed twice, so that the
size of the code bounds the number of steps.
-/

namespace FastPath

open Bytecode CompileM Compilation

attribute [local instance] Cell.written

open Relation (TransGen ReflTransGen)

/-- There are no jumps, only the last instruction may end a path, and each instruction adds at most
`n` instructions and `m` passes over the slots. -/
structure Context.Straight (c : Context) (n m : Nat) : Prop where
  jumpTarget? : ∀ pc, c.function.jumpTarget? pc = none
  isJumpTarget : ∀ pc, c.flow.isJumpTarget pc = false
  last : ∀ pc i, c.function.code[pc]? = some i → i.isTerminator → pc + 1 = c.function.code.size
  adds : ∀ pc i, c.function.code[pc]? = some i → Adds { c with pc } n m (emit i)

namespace CompileM

variable {c : Context} {s s' : Compilation} {d n m : Nat} {i : Instr}

/-- Control falls into an instruction that is not jumped to. -/
theorem enter_falls (hjump : c.flow.isJumpTarget c.pc = false) (h : enter d true c s = .ok () s') :
    s'.asm = { s.asm with frame := { s.asm.frame with pc := c.pc } } ∧ s'.caches = s.caches ∧
      s'.labels = s.labels.setIfInBounds c.pc (some (s.asm.buffer.label .fast)) := by
  obtain ⟨_, s₁, hread, h⟩ := bind_ok_inv h
  cases hread
  obtain ⟨_, s₂, hpc, h⟩ := bind_ok_inv h
  rw [lift_run] at hpc
  cases hpc
  simp only [Bool.not_true, Bool.false_eq_true, if_false, hjump] at h
  obtain ⟨f, s₃, hframe, h⟩ := bind_ok_inv h
  rw [lift_run] at hframe
  cases hframe
  dsimp only at h
  split at h
  · cases h
    exact ⟨rfl, rfl, rfl⟩
  · cases h

/-- Checks and books around an instruction add no code. -/
theorem compileOp_adds (hi : Adds c n m (emit i)) : Adds c n m (compileOp i d) := by
  refine adds_read ?_
  have hstart :
      Adds c 0 0 (modifyThe Compilation fun s => { s with lifecycle := .unanalyzed }) := by
    intro s r s' h
    cases h
    exact ⟨rfl, rfl, .refl _⟩
  refine hstart.next fun _ => (adds_lift (AsmM.adds_updateSlow fun a =>
    .of_same rfl rfl (fun _ => id) rfl (Nat.le_refl _))).next fun _ => advance_adds.next fun _ => ?_
  rw [← Nat.zero_add n, ← Nat.zero_add m]
  refine hi.bind fun r => finishStep_adds.next fun _ => (adds_track FrameM.check_adds).next fun _ =>
    adds_frame fun f => ?_
  dsimp only
  split
  · exact adds_pure
  · exact adds_throw.next fun _ => adds_pure

end CompileM

namespace Compilation.Builds

variable {c : Context} {s t : Compilation} {pc n m : Nat} {live : Bool}

/-- What the rest of the function adds to the code. -/
theorem growsBy (hc : c.Straight n m) (h : Builds c t pc live s)
    (hlive : live = true ∨ c.function.code.size ≤ pc) : t.caches = s.caches ∧
      (∀ j < pc, t.labels[j]? = s.labels[j]?) ∧
      s.asm.GrowsBy ((c.function.code.size - pc) * n) ((c.function.code.size - pc) * m) t.asm := by
  induction h with
  | done => exact ⟨rfl, fun _ _ => rfl, .refl _⟩
  | skip hi =>
    have hlt := (Array.getElem?_eq_some_iff.1 hi).1
    exact absurd (hlive.resolve_left nofun) (Nat.not_le.2 hlt)
  | @op pc k d live s s₁ s₂ σ i last hi hd henter hs₁ hop hlast hrest ih =>
    have hlt := (Array.getElem?_eq_some_iff.1 hi).1
    obtain rfl := hlive.resolve_right (Nat.not_le.2 hlt)
    obtain ⟨hasm₁, hcaches₁, hlabels₁⟩ :=
      enter_falls (c := { c with pc }) (hc.isJumpTarget pc) henter
    obtain ⟨hcaches, hlabels, hasm⟩ := compileOp_adds (hc.adds pc i hi) _ _ _ hop
    obtain ⟨hcaches', hlabels', hasm'⟩ := ih <| by
      cases ht : last.isTerminator with
      | true => exact .inr (hc.last _ last hlast ht).ge
      | false => exact .inl rfl
    refine ⟨(hcaches'.trans hcaches).trans hcaches₁, fun j hj => ?_, ?_⟩
    · rw [hlabels' j (by lia), hlabels, hlabels₁]
      exact Array.getElem?_setIfInBounds_ne (Nat.ne_of_gt hj)
    have hentered : s.asm.GrowsBy 0 0 s₁.asm := by
      rw [hasm₁]
      exact .of_extent (.of_same rfl rfl (fun _ => id) rfl (Nat.le_refl _)) rfl (Nat.le_refl _)
    have hle : c.function.code.size - (pc + k + 1) + 1 ≤ c.function.code.size - pc := by lia
    refine ((hentered.trans hasm).trans hasm').mono ?_ ?_
    · exact Nat.le_trans (Nat.succ_mul _ n).ge (Nat.mul_le_mul_right n hle)
    · exact Nat.le_trans (Nat.succ_mul _ m).ge (Nat.mul_le_mul_right m hle)

end Compilation.Builds

/-! ### Entering the code -/

/-- The run is over, and ended as the instructions from a point on say. -/
def Scene.ended (f : Function) (p : Point) : Scene :=
  { start (fun _ => False) with
    stop := fun o m => ∃ q, ReflTransGen (Point.Moves f) p q ∧ q.Halts f o m.heap }

variable {f : Function} {p q : Point} {m : Machine}

/-- What is said of a later point holds from an earlier one on. -/
theorem Scene.Within.ended (h : ReflTransGen (Point.Moves f) p q) :
    (Scene.ended f q).Within (Scene.ended f p) where
  fast _ := id
  slow _ := id
  exit _ := id
  jump _ _ := id
  pc _ _ := id
  stop := fun _ _ ⟨r, hr, hhalts⟩ => ⟨r, h.trans hr, hhalts⟩

/-- The code of every instruction has its effects, at the points that satisfy the invariant. -/
structure Context.Follows (c : Context) (I : Point → Prop) : Prop where
  grew : ∀ p, I p → c.heap.Grew p.store.heap
  moves : ∀ p q, I p → p.Moves c.function q → I q
  performs : ∀ (E : Placement) (k : Cursor) (p : Point) (i : Instr) (d : Nat), I p →
    E.monitored = ({ c with pc := p.pc } : Context).promised → c.flow.depth? p.pc = some d →
    ({ c with pc := p.pc } : Context).Holds d k.frame →
    ({ c with pc := p.pc } : Context).Stands i k.frame p →
    Produces E { c with pc := p.pc } (emit i) k
      (.start (k.frame.Carries E.room p.store))
      fun r k' S' => S'.Performs E c.function p r.2 k.frame k'

theorem Context.Follows.invariant {c : Context} {I : Point → Prop} (h : c.Follows I) (hp : I p)
    (hq : TransGen (Point.Moves c.function) p q) : I q := by
  induction hq with
  | single hm => exact h.moves _ _ hp hm
  | tail _ hm ih => exact h.moves _ _ ih hm

theorem Frame.Carries.atPc {f : Frame} {N : Nat} {σ : Store} (h : f.Carries N σ m) (pc : Nat) :
    ({ f with pc } : Frame).Carries N σ m := by
  obtain ⟨⟨⟨h₁, h₂, h₃, h₄, h₅, h₆, h₇, h₈, h₉, h₁₀⟩, hroom, hholds⟩, hheap, hN⟩ := h
  exact ⟨⟨⟨h₁, h₂, h₃, h₄, h₅, h₆, h₇, h₈, h₉, h₁₀⟩, hroom, hholds⟩, hheap, hN⟩

namespace Compilation.Builds

variable {c : Context} {s t : Compilation} {pc n m : Nat} {live : Bool}

/-- **The code of the rest of the function leads to where its instructions do.** -/
theorem reaches (hc : c.Straight n m) {I : Point → Prop} (hI : c.Follows I)
    (h : Builds c t pc live s) (hlive : live = true) {p : Position} (hp : p.Plain) {N : Nat}
    (hcontains : p.code.Contains t.asm) (hroom : t.asm.frame.maxSp ≤ N) {q : Point} {mach : Machine}
    (hq : I q) (hpc : q.pc = pc) (hsp : q.sp = s.asm.frame.sp)
    (hm : s.asm.frame.Carries N q.store mach) :
    p.Reaches true s.asm.extent (.running (p.code.place (s.asm.buffer.label .fast)) mach) t.asm
      (.ended c.function q) := by
  induction h generalizing q mach with
  | done | skip => cases hlive
  | @op pc k d live s s₁ s₂ σ i last hi hd henter hs₁ hop hlast hrest ih =>
    subst hlive hpc
    obtain ⟨hasm₁, -, -⟩ :=
      enter_falls (c := { c with pc := q.pc }) (hc.isJumpTarget q.pc) henter
    have hframe : s₁.asm.frame = σ.frame := hs₁.typed.asm.books.frame
    have hholds := hs₁.holds
    rw [← hframe] at hholds
    have hentered : s₁.asm.frame.Carries N q.store mach := by
      rw [hasm₁]
      exact hm.atPc q.pc
    have hstands : ({ c with pc := q.pc } : Context).Stands i s₁.asm.frame q :=
      ⟨rfl, hi, by rw [hsp, hasm₁], hholds.argCount, hholds.localCount, hentered.tracks.sound,
        hentered.agrees, hI.grew q hq⟩
    obtain ⟨-, -, -, S, hperforms, hleads⟩ := compileOp_performs
      (E := ⟨p, hp, N, ({ c with pc := q.pc } : Context).promised⟩) rfl
      (hI.performs _ s₁.asm.cursor q i d hq rfl hd hholds hstands) hop
    obtain ⟨-, -, hgrows⟩ := hrest.growsBy hc <| by
      cases ht : last.isTerminator with
      | true => exact .inr (hc.last _ last hlast ht).ge
      | false => exact .inl rfl
    obtain ⟨k₁, x, mach₁, hsteps, hat, hpos, hle⟩ := hleads (hcontains.of_grows hgrows.grows)
      (Nat.le_trans hgrows.grows.maxSp hroom) (.here (s₁.asm.buffer.label .fast)) mach
      (.inl ⟨rfl, hentered⟩)
    have hextent := hgrows.grows.extent_le
    have hstart : s₁.asm.extent = s.asm.extent ∧ s₁.asm.buffer.label .fast =
        s.asm.buffer.label .fast := by
      rw [hasm₁]
      exact ⟨rfl, rfl⟩
    rw [hstart.1] at hle
    rw [hstart.2] at hsteps
    replace hat := hat.within hperforms.within
    cases x with
    | here l =>
      rcases hat with ⟨rfl, ⟨i', hi', hfalls⟩, q₁, hmoves, hpc₁, hsp₁, hm₁⟩ | ⟨-, hno⟩
      · cases hlast.symm.trans hi'
        obtain ⟨k₂, y, mach₂, hsteps₂, hat₂, hpos₂, hle₂⟩ := ih (by rw [hfalls]; rfl)
          (hI.invariant hq hmoves) hpc₁ hsp₁ hm₁
        refine ⟨k₁ + k₂, y, mach₂, hsteps.trans hsteps₂, ?_,
          fun _ hy => Nat.add_pos_right k₁ (hpos₂ rfl hy), by omega⟩
        exact hat₂.within (.ended hmoves.to_reflTransGen)
      · cases hno
    | taken j => rcases hat with ⟨-, hno⟩ | hno <;> cases hno
    | pc target =>
      obtain ⟨⟨j, -, hj⟩, -⟩ := hat
      rw [hc.jumpTarget?] at hj
      cases hj
    | stop o => exact ⟨k₁, .stop o, mach₁, hsteps, hat, hpos, Nat.le_trans hle hextent⟩

end Compilation.Builds

/-! ### Runs -/

/-- The point at which a run starts: missing arguments are `undefined`, and so are the locals. -/
def Bytecode.Function.entry (f : Function) (args : List Value) (h : Heap) : Point where
  pc := 0
  sp := f.paramCount + f.localCount
  store := ⟨fun s => if s < f.paramCount then args[s]?.getD .undefined else .undefined, h⟩

/-- What the oracle says about the arguments is true when a run starts. -/
def Oracle.Fits (o : Oracle) (f : Function) (args : List Value) : Prop :=
  ∀ i : UInt16, i.toNat < f.paramCount → (o.var (.arg i)).mightBe (args[i.toNat]?.getD .undefined).tag

namespace Machine

variable {code : Code} {args : List Value} {s : Slot}

/-- The memory of a new frame. -/
theorem getElem?_initialSlots (hs : s < code.frameSize) :
    (initialSlots code args)[s]? =
      some (if s < code.argCount then args[s]?.getD .undefined else Value.undefined).toCell := by
  have hgiven : (((args.take code.argCount).take code.frameSize).map Value.toCell)[s]? =
      if s < code.argCount then args[s]?.map Value.toCell else none := by
    rw [List.getElem?_map, List.getElem?_take_of_lt hs, List.getElem?_take]
    split <;> rfl
  unfold initialSlots
  dsimp only
  rw [Array.getElem?_append]
  split
  · next hlt =>
    rw [List.getElem?_toArray, hgiven]
    rw [List.size_toArray] at hlt
    obtain ⟨v, hv⟩ : ∃ v,
        (((args.take code.argCount).take code.frameSize).map Value.toCell)[s]? = some v :=
      ⟨_, List.getElem?_eq_getElem hlt⟩
    rw [hgiven] at hv
    split at hv
    · next hargs =>
      obtain ⟨w, hw, rfl⟩ := Option.map_eq_some_iff.1 hv
      simp [hargs, hw]
    · cases hv
  · next hge =>
    rw [List.size_toArray] at hge
    have hnone : (if s < code.argCount then args[s]?.map Value.toCell else none) = none := by
      rw [← hgiven]
      exact List.getElem?_eq_none (Nat.not_lt.1 hge)
    have hrest :
      s - (((args.take code.argCount).take code.frameSize).map Value.toCell).toArray.size <
        code.frameSize -
          (((args.take code.argCount).take code.frameSize).map Value.toCell).length := by
      rw [List.size_toArray]
      lia
    rw [Array.getElem?_replicate, if_pos hrest]
    split at hnone
    · next hargs =>
      rw [Option.map_eq_none_iff] at hnone
      simp only [hargs, if_true, hnone]
      rfl
    · next hargs =>
      rw [if_neg hargs]
      rfl

end Machine

namespace Compilation

variable {c : Context} {args : List Value} {N : Nat}

/-- The types that the compiler starts from are those of the oracle. -/
theorem start_mightBe (hparams : c.function.paramCount ≤ 2 ^ 16)
    (hlocals : c.function.localCount = 0) (hfits : c.oracle.Fits c.function args) {s : Slot}
    (hs : s < c.function.paramCount + c.function.localCount) (h : Heap) :
    ((start c).asm.frame.baseTypes[s]?.getD .unknown).mightBe
      ((c.function.entry args h).store.env s).tag := by
  change ((((List.range c.function.paramCount).map fun i => c.oracle.var (.arg (UInt16.ofNat i))) ++
    (List.range c.function.localCount).map fun i =>
      c.oracle.var (.loc (UInt16.ofNat i))).toArray[s]?.getD
      .unknown).mightBe
      (if s < c.function.paramCount then args[s]?.getD .undefined else .undefined).tag
  rw [List.getElem?_toArray, List.getElem?_append, List.length_map, List.length_range]
  have harg : s < c.function.paramCount := by lia
  rw [if_pos harg, if_pos harg, List.getElem?_map, List.getElem?_range harg, Option.map_some,
    Option.getD_some]
  have hword : (UInt16.ofNat s).toNat = s :=
    UInt16.toNat_ofNat_of_lt' (Nat.lt_of_lt_of_le harg hparams)
  have := hfits (UInt16.ofNat s) (hword.symm ▸ harg)
  rwa [hword] at this

/-- A run starts with what the frame of the compiler expects. -/
theorem start_carries (live : LiveCode) (hparams : c.function.paramCount ≤ 2 ^ 16)
    (hlocals : c.function.localCount = 0) (hfits : c.oracle.Fits c.function args)
    (hargs : live.code.argCount = c.function.paramCount)
    (hbase : c.function.paramCount + c.function.localCount ≤ N) (hsize : N < live.code.frameSize)
    (h : Heap) : (start c).asm.frame.Carries N
    (c.function.entry args h).store (.start live h args) := by
  have hroom : N < (Machine.start live h args).slots.size := by
    change N < (Machine.initialSlots live.code args).size
    rwa [Machine.size_initialSlots]
  refine ⟨.new (Nat.le_of_lt (Nat.lt_of_le_of_lt hbase hroom)) (fun s cell hs hcell => ?_)
    (fun s hs => TypeSet.describes_knownType (start_mightBe hparams hlocals hfits hs h)), rfl,
      hroom⟩
  change (Machine.initialSlots live.code args)[s]? = some cell at hcell
  rw [Machine.getElem?_initialSlots (by lia), hargs] at hcell
  cases hcell
  exact Cell.reads_toCell _

end Compilation

/-- A run that comes to an end within the limit. -/
theorem LiveCode.run_of_steps (live : LiveCode) {h : Heap} {args : List Value} {entry : Offset}
    {o : Outcome} {k limit : Nat} (hentry : live.code.offset? 0 = some entry)
    (hsteps : Steps ⟨live.code, f, false, entry⟩ k (.running entry (.start live h args))
      (.stopped o m))
    (hk : k ≤ limit) :
    (live.run f h args limit false).outcome = .ok o ∧
    (live.run f h args limit false).heap = m.heap := by
  have hrun : Machine.runCode live.code f false limit (.start live h args) = .ok o m := by
    rw [Machine.runCode, hentry]
    change (Stage.running entry (.start live h args)).resume ⟨live.code, f, false, entry⟩
      limit limit = _
    rw [← Nat.add_sub_of_le hk, hsteps.resume]
    rfl
  rw [LiveCode.run, hrun]
  exact ⟨rfl, rfl⟩

namespace Context.Straight

variable {c : Context} {n m : Nat} {I : Point → Prop} {args : List Value}

/-- The code of the first instruction is where the code starts. -/
theorem label_zero (hc : c.Straight n m) {t : Compilation}
    (h : Builds c t 0 true (.start c)) :
    t.labels[0]? = some (some ((start c).asm.buffer.label .fast)) := by
  cases h with
  | @op pc k d live s s₁ s₂ σ i last hi hd henter hs₁ hop hlast hrest =>
    have hlt := (Array.getElem?_eq_some_iff.1 hi).1
    obtain ⟨-, -, hlabels₁⟩ := enter_falls (c := { c with pc := 0 })
      (hc.isJumpTarget 0) henter
    obtain ⟨-, hlabels, -⟩ := compileOp_adds (hc.adds 0 i hi) _ _ _ hop
    obtain ⟨-, hlabels', -⟩ := hrest.growsBy hc <| by
      cases ht : last.isTerminator with
      | true => exact .inr (hc.last _ last hlast ht).ge
      | false => exact .inl rfl
    rw [hlabels' 0 (by omega), hlabels, hlabels₁]
    refine Array.getElem?_setIfInBounds_self_of_lt ?_
    simpa [start] using hlt

/-- The most instructions that the code of the function can have. -/
def bound (c : Context) (n m : Nat) : Nat :=
  spent (c.function.code.size * n) (c.function.code.size * m)
    (c.function.paramCount + c.function.localCount)

/-- **A run of a function without jumps** ends as its instructions do, after no more steps than
there are instructions in the code. -/
theorem run (hc : c.Straight n m) (hI : c.Follows I) (hv : c.function.validate = .ok ())
    (hflow : Flow.analyze c.function = .ok c.flow) (hstuck : ¬ c.Stuck)
    (hsize : bound c n m < Inst.unlinked) (hparams : c.function.paramCount ≤ 2 ^ 16)
    (hlocals : c.function.localCount = 0) (hfits : c.oracle.Fits c.function args)
    (hentry : I (c.function.entry args c.heap)) :
    ∃ compiled, compileWith c = .ok compiled ∧
      ∀ limit, bound c n m ≤ limit → ∃ o q,
        ((LiveCode.ofCode compiled.code).run c.function c.heap args limit false).outcome = .ok o ∧
        ReflTransGen (Point.Moves c.function) (c.function.entry args c.heap) q ∧
        q.Halts c.function o
          ((LiveCode.ofCode compiled.code).run c.function c.heap args limit false).heap := by
  obtain ⟨hset, hdepth⟩ := Flow.analyze_settled hflow
  obtain ⟨σ, hstart⟩ := start_between hdepth
  obtain ⟨t, σ', hrun, ht, hcompile⟩ := (compileWith_run hv hflow).resolve_right fun h => hstuck h.2
  have hbuilds := builds_of_compileFrom hv hset hdepth hstart hrun
  obtain ⟨hcaches, -, hgrows⟩ := hbuilds.growsBy hc (.inl rfl)
  have hextent : t.asm.extent ≤ bound c n m := by
    refine Nat.le_trans hgrows.extent (Nat.le_of_eq ?_)
    have hwidth : (start c).asm.frame.width =
        c.function.paramCount + c.function.localCount := Nat.max_self _
    rw [hwidth]
    exact Nat.zero_add _
  obtain ⟨code, hcode⟩ : ∃ code, t.finish c = .ok code := by
    refine ht.finish_run ?_
    rw [CodeBuffer.laidOut, Array.size_append]
    exact Nat.lt_of_le_of_lt hextent hsize
  rw [hcode] at hcompile
  refine ⟨_, hcompile, fun limit hlimit => ?_⟩
  have hcontains : code.Contains t.asm :=
    finish_contains (hgrows.grows.regular
      ⟨by rintro ⟨⟨⟩, _⟩ _ _ ⟨⟩, by rintro _ ⟨⟨⟩⟩, .nil⟩) ht.links_le hcode
  obtain ⟨-, -, hfields⟩ := finish_ok hcode
  have hfast : code.fastLength = t.asm.buffer.fast.size := by rw [hfields]
  have hframe : code.frameSize = max t.asm.frame.maxSp
      (c.function.paramCount + c.function.localCount + c.flow.maxDepth) + 1 := by rw [hfields]
  have hoffset :
      code.offset? 0 = some (code.place ((start c).asm.buffer.label .fast)) := by
    rw [Code.place, hfast, hfields, Code.offset?, Array.getElem?_map, hc.label_zero hbuilds]
    rfl
  have hplain : Position.Plain ⟨code, c.function, false,
      code.place ((start c).asm.buffer.label .fast)⟩ := by
    refine ⟨rfl, ?_⟩
    change code.caches = #[]
    rw [hfields, hcaches]
    exact Array.map_empty
  obtain ⟨k, x, mach, hsteps, hat, -, hle⟩ := hbuilds.reaches hc hI rfl hplain hcontains
    (Nat.le_max_left _
      (c.function.paramCount + c.function.localCount + c.flow.maxDepth)) hentry rfl rfl
    (start_carries (.ofCode code) hparams hlocals hfits (by rw [hfields]; rfl)
      (Nat.le_trans (Nat.le_add_right _ _) (Nat.le_max_right _ _)) hframe.ge c.heap)
  cases x with
  | stop o =>
    obtain ⟨q, hq, hhalts⟩ := hat
    obtain ⟨houtcome, hheap⟩ := (LiveCode.ofCode code).run_of_steps hoffset hsteps
      (Nat.le_trans (Nat.le_of_add_left_le hle) (Nat.le_trans hextent hlimit))
    exact ⟨o, q, houtcome, hq, hheap.symm ▸ hhalts⟩
  | here l => rcases hat with ⟨-, hno⟩ | ⟨-, hno⟩ <;> cases hno
  | taken j => rcases hat with ⟨-, hno⟩ | hno <;> cases hno
  | pc j => cases hat

end Context.Straight

end FastPath
