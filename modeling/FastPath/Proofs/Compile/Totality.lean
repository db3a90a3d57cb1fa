import FastPath.Proofs.Bytecode.Reachability
import FastPath.Proofs.Compile.Dispatch

/-!
# Compilation succeeds

The compiler goes through a function instruction by instruction. Between two operations
nothing is open, and the frame has as many values on its stack as the analysis says, or, where
control does not fall in from above, the end of the fast stream cannot be reached. Every
instruction that is jumped to has a label at which no register is needed.

In the end every link leads to a label, every branch has a link and every call is complete, so
the code can be finished, provided that it is not too long for its addresses.
-/

namespace FastPath

open Frame Bytecode CodeBuffer CompileM

/-- Some instruction that is reached is flawed. -/
def Context.Stuck (c : Context) : Prop :=
  ∃ pc d i, c.flow.depth? pc = some d ∧ c.function.code[pc]? = some i ∧ c.Flawed i d

/-! ### Frames between operations -/

namespace Frame

variable {f : Frame} {D : Nat} {L : Loans}

theorem Ready.atPc (h : f.Ready D L) (pc : Nat) : ({ f with pc } : Frame).Ready D L where
  __ := h
  sound := { h.sound with }

theorem Ready.new (argCount localCount : Nat) (baseTypes : Array TypeSet) (maxDepth : Nat) :
    (new argCount localCount baseTypes maxDepth).Ready D Loans.none where
  sound := sound_new ..
  neat s hl := by
    rw [entry_new argCount localCount baseTypes maxDepth hl.1]
    exact Entry.neat_inMemory _
  base := Nat.le_refl _
  room := Nat.le_max_left _ _
  lends := lends_reset RegisterFile.new
  temp := nofun
  ftemp := nofun

theorem covers_new (P : Shape) (argCount localCount : Nat) (baseTypes : Array TypeSet)
    (maxDepth : Nat) :
    P.Covers (Loans.none.shape (new argCount localCount baseTypes maxDepth)) :=
  covers_of_unbound (fun r => RegisterFile.binding_new r) fun r => RegisterFile.fbinding_new r

end Frame

namespace Compilation

/-- The instructions before `pc` that are jumped to, and the entry, have labels at which no
register is needed. -/
structure Labelled (s : Compilation) (c : Context) (pc : Nat) (σ : Sketch) : Prop where
  size : s.labels.size = c.function.code.size
  label : ∀ n < pc, c.Jumps n ∨ n = 0 →
    ∃ l, s.labels[n]? = some (some l) ∧ (l, Shape.none) ∈ σ.targets

/-- Nothing is open, and the next instruction is the one at `pc`. Control falls in from above
if `live`. -/
structure Between (s : Compilation) (c : Context) (pc : Nat) (live : Bool) (σ : Sketch) : Prop where
  typed : s.Typed c σ
  clean : σ.Clean
  argCount : σ.frame.argCount = c.function.paramCount
  localCount : σ.frame.localCount = c.function.localCount
  depth : live → ∃ d, c.flow.depth? pc = some d ∧ σ.frame.sp = σ.frame.stackBase + d
  closed : live = false → σ.shape .fast = Shape.all
  entry : pc = 0 → σ.shape .fast = Shape.none
  labelled : s.Labelled c pc σ

/-- The instruction at the current pc can be compiled, and has its label. -/
structure Entered (s : Compilation) (c : Context) (depth : Nat) (σ : Sketch) : Prop where
  typed : s.Typed c σ
  clean : σ.Clean
  holds : c.Holds depth σ.frame
  labelled : s.Labelled c (c.pc + 1) σ

/-- All instructions have been compiled. -/
structure Finished (s : Compilation) (c : Context) (σ : Sketch) : Prop where
  typed : s.Typed c σ
  clean : σ.Clean
  closed : σ.shape .fast = Shape.all
  label : ∀ n, c.Jumps n ∨ n = 0 →
    ∃ l, s.labels[n]? = some (some l) ∧ (l, Shape.none) ∈ σ.targets

variable {s : Compilation} {c : Context} {pc : Nat} {live : Bool} {σ : Sketch}

theorem Labelled.mono (h : s.Labelled c pc σ) {s' : Compilation} {σ' : Sketch}
    (hs : s'.labels = s.labels) (hσ : σ.targets ⊆ σ'.targets) : s'.Labelled c pc σ' := by
  refine ⟨hs ▸ h.size, fun n hn hj => ?_⟩
  obtain ⟨l, hl, ht⟩ := h.label n hn hj
  exact ⟨l, hs ▸ hl, hσ ht⟩

/-- The pc of the context does not matter between operations. -/
theorem Between.atPc (h : s.Between c pc live σ) (n : Nat) :
    s.Between { c with pc := n } pc live σ :=
  ⟨⟨h.typed.asm, h.typed.caches⟩, h.clean, h.argCount, h.localCount, h.depth, h.closed, h.entry,
    h.labelled.size, h.labelled.label⟩

/-- Instructions that are not jumped to need no label. -/
theorem Labelled.skip (h : s.Labelled c pc σ) (hpos : 0 < pc) {n : Nat}
    (hn : ∀ k < n, ¬ c.Jumps (pc + k)) : s.Labelled c (pc + n) σ := by
  refine ⟨h.size, fun m hm hj => ?_⟩
  by_cases hlt : m < pc
  · exact h.label m hlt hj
  · obtain ⟨k, rfl⟩ := Nat.exists_eq_add_of_le (Nat.le_of_not_lt hlt)
    rcases hj with hj | hj
    · exact absurd hj (hn k (by lia))
    · lia

/-! ### The start -/

/-- The sketch of no code. -/
def blank (f : Frame) : Sketch where
  frame := f
  loans := Loans.none
  shape
    | .fast => Shape.none
    | .slow => Shape.all
  size _ := 0
  opens := []
  waiting := false
  pending := false
  sites := []
  targets := []
  caches := []

theorem blank_typing (f : Frame) (n : Nat) :
    (blank f).Typing .empty n fun l => (blank f).shape l.stream where
  size s := by cases s <;> rfl
  ends _ := rfl
  inst l i hi := by
    obtain ⟨s, o⟩ := l
    cases s <;> simp [inst?, stream, empty] at hi
  site _ _ h := nomatch h
  target _ _ h := nomatch h

/-- The books of an empty draft balance. -/
theorem blank_books (f : Frame) (J : Nat → Prop) (D : Nat) :
    (blank f).Books J D ⟨f, .empty, .empty⟩ := by
  have hinst : ∀ l, empty.inst? l = none := by
    rintro ⟨s, o⟩
    cases s <;> rfl
  exact {
    frame := rfl
    link := fun k hk => absurd hk (Array.not_mem_empty k)
    branch := fun l ⟨g, t, hl⟩ => by cases (hinst l).symm.trans hl
    tally := Nat.le_refl _
    exit := fun l hl => absurd hl (Array.not_mem_empty l)
    waiting := rfl
    generation := rfl
    call := fun l i hi => by cases (hinst l).symm.trans hi
    cache := fun l n sp m hi => by cases (hinst l).symm.trans hi
    sp := fun k hk => absurd hk (Array.not_mem_empty k)
    opStart := Nat.le_refl _
    complete := fun i k hk => by cases hk
    serves := fun _ h => nomatch h }

/-- Nothing is open when compilation starts. -/
theorem blank_clean (f : Frame) : (blank f).Clean := ⟨⟨⟨rfl, rfl, rfl⟩, rfl⟩, rfl⟩

/-- The compiler starts between two operations. -/
theorem start_between (hentry : c.flow.depth? 0 = some 0) :
    ∃ σ, (start c).Between c 0 true σ := by
  have htyped : (start c).Typed c (blank (start c).asm.frame) :=
    ⟨⟨.new .., covers_new .., blank_books .., _, blank_typing ..⟩, rfl⟩
  exact ⟨_, {
    typed := htyped
    clean := blank_clean _
    argCount := rfl
    localCount := rfl
    depth := fun _ => ⟨0, hentry, rfl⟩
    closed := nofun
    entry := fun _ => rfl
    labelled := ⟨by simp [start], nofun⟩ }⟩

/-- The instruction at `pc` gets its label where no register is needed, if it is jumped to. -/
theorem Labelled.place (h : s.Labelled c pc σ) (hpc : pc < c.function.code.size)
    (hshape : c.Jumps pc ∨ pc = 0 → σ.shape .fast = Shape.none) :
    ({ s with labels := s.labels.setIfInBounds pc (some (σ.label .fast)) } : Compilation).Labelled c
      (pc + 1) (σ.mark .fast) := by
  refine ⟨Array.size_setIfInBounds.trans h.size, fun n hn hj => ?_⟩
  rcases Nat.lt_succ_iff_lt_or_eq.1 hn with hn | rfl
  · obtain ⟨l, hl, ht⟩ := h.label n hn hj
    exact ⟨l, (Array.getElem?_setIfInBounds_ne (Nat.ne_of_gt hn)).trans hl,
      List.mem_cons_of_mem _ ht⟩
  · refine ⟨σ.label .fast, Array.getElem?_setIfInBounds_self_of_lt (h.size ▸ hpc), ?_⟩
    rw [← hshape hj]
    exact List.mem_cons_self

end Compilation

namespace CompileM

variable {c : Context} {s : Compilation} {σ : Sketch} {live : Bool} {d : Nat}

/-! ### Entering an instruction -/

/-- The label of the instruction is where the fast stream ends. -/
theorem place_run (hs : s.Typed c σ) (hσ : σ.Clean) (hh : c.Holds d σ.frame)
    (hlabelled : s.Labelled c c.pc σ) (hpc : c.pc < c.function.code.size)
    (hshape : c.Jumps c.pc ∨ c.pc = 0 → σ.shape .fast = Shape.none) :
    ∃ s' σ', (do
      let found := (← AsmM.frame).depth
      unless found = d do throw (.flow (.depthMismatch c.pc d found))
      let start ← AsmM.label .fast
      modifyThe Compilation fun s =>
        { s with labels := s.labels.setIfInBounds c.pc (some start) } : CompileM Unit) c s =
      .ok () s' ∧ s'.Entered c d σ' := by
  have hdepth : σ.frame.depth = d := by rw [depth, hh.sp, Nat.add_sub_cancel_left]
  refine ⟨{ s with labels := s.labels.setIfInBounds c.pc (some (σ.label .fast)) }, σ.mark .fast,
    bind_ok (a := s.asm.frame) rfl ?_, ⟨⟨hs.asm.mark .fast, hs.caches⟩,
      ⟨⟨⟨hσ.slow, hσ.opens, hσ.pending⟩, hσ.waiting⟩, hσ.loans⟩, hh, hlabelled.place hpc hshape⟩⟩
  rw [hs.asm.books.frame, ← hs.asm.label_eq]
  dsimp only
  rw [if_pos hdepth]
  rfl

/-- An instruction is entered with the frame that it expects. -/
theorem enter_run (hs : s.Between c c.pc live σ) (hd : c.flow.depth? c.pc = some d)
    (hmax : d ≤ c.flow.maxDepth) (hpc : c.pc < c.function.code.size) :
    ∃ s' σ', enter d live c s = .ok () s' ∧ s'.Entered c d σ' := by
  let f₁ : Frame := { σ.frame with pc := c.pc }
  let σ₁ : Sketch := σ.reframe f₁ σ.loans
  let s₁ : Compilation := { s with asm := { s.asm with frame := f₁ } }
  have hrun : (liftM (AsmM.updateFrame fun f => { f with pc := c.pc }) : CompileM Unit) c s =
      .ok () s₁ := by
    change _ = EStateM.Result.ok ()
      { s with asm := { s.asm with frame := { σ.frame with pc := c.pc } } }
    rw [← hs.typed.asm.books.frame]
    rfl
  have hs₁ : s₁.Typed c σ₁ :=
    ⟨hs.typed.asm.reframe hs.clean.waiting (hs.typed.asm.ready.atPc c.pc) hs.typed.asm.fast
      (Nat.le_refl _), hs.typed.caches⟩
  have hclean₁ : σ₁.Clean := hs.clean.reframe f₁ hs.clean.loans
  have hlabelled₁ : s₁.Labelled c c.pc σ₁ := hs.labelled.mono rfl (List.Subset.refl _)
  cases live with
  | false =>
    have hbase : f₁.stackBase = c.function.paramCount + c.function.localCount := by
      rw [stackBase, ← hs.argCount, ← hs.localCount]
    have hroom : f₁.stackBase + d ≤ f₁.limit c.slots := by
      simp only [limit, Context.slots]
      lia
    have hs₂ : ({ s₁ with asm := { s₁.asm with frame := f₁.reset d } } : Compilation).Typed c
        ((σ₁.reframe (f₁.reset d) Loans.none).weaken .fast .none) := by
      have hreframed := hs₁.asm.reframe hclean₁.waiting (hs₁.asm.ready.reset hroom)
        (covers_reset _ _ _) (Nat.le_refl _)
      exact ⟨hreframed.weaken (Shape.covers_none _) fun _ => covers_reset _ _ _, hs₁.caches⟩
    obtain ⟨s', σ', hplace, hentered⟩ := place_run (d := d) hs₂
      ((hclean₁.reframe (f₁.reset d) rfl).weaken .none)
      ⟨hs.argCount, hs.localCount, rfl⟩ (hlabelled₁.mono rfl (List.Subset.refl _))
        hpc fun _ => rfl
    exact ⟨s', σ', bind_ok rfl (bind_ok hrun (bind_ok rfl hplace)), hentered⟩
  | true =>
    obtain ⟨d', hd', hsp⟩ := hs.depth rfl
    obtain rfl : d = d' := Option.some.inj (hd.symm.trans hd')
    by_cases hjump : c.flow.isJumpTarget c.pc
    · obtain ⟨_, a₂, σ₂, hsync, ha₂, hgrows, hreframes, hf₂, hL₂⟩ :=
        AsmM.syncAndForget_delivers hclean₁.waiting hclean₁.loans s₁.asm hs₁.asm
      have hs₂ : ({ s₁ with asm := a₂ } : Compilation).Typed c (σ₂.weaken .fast .none) := by
        refine ⟨ha₂.weaken (Shape.covers_none _) fun _ => ?_, hs₁.caches.trans hgrows.caches.symm⟩
        rw [hL₂, hf₂]
        exact covers_reset _ _ _
      have hclean₂ : σ₂.Clean := ⟨hreframes.quiet hclean₁.toQuiet, hL₂⟩
      have hsp₂ : σ₂.frame.sp = σ₂.frame.stackBase + d := by
        rw [hgrows.stackBase, hf₂, sp_reset, depth]
        change _ + (σ.frame.sp - σ.frame.stackBase) = _
        rw [hsp, Nat.add_sub_cancel_left]
        rfl
      obtain ⟨s', σ', hplace, hentered⟩ := place_run (d := d) hs₂
        (hclean₂.weaken .none)
        ⟨hgrows.argCount.trans hs.argCount, hgrows.localCount.trans hs.localCount, hsp₂⟩
        (hlabelled₁.mono rfl hgrows.targets) hpc fun _ => rfl
      refine ⟨s', σ', bind_ok rfl (bind_ok hrun ?_), hentered⟩
      simp only [Bool.not_true, Bool.false_eq_true, if_false, hjump, if_true]
      exact bind_ok (lift_ok (c := c) hsync) hplace
    · obtain ⟨s', σ', hplace, hentered⟩ := place_run (d := d) hs₁ hclean₁
        ⟨hs.argCount, hs.localCount, hsp⟩ hlabelled₁ hpc
        fun h => hs.entry (h.resolve_left fun hj => hjump hj.1)
      refine ⟨s', σ', bind_ok rfl (bind_ok hrun ?_), hentered⟩
      simp only [Bool.not_true, Bool.false_eq_true, if_false, hjump]
      exact hplace

/-! ### From instruction to instruction -/

/-- The depths that control falls through change as the bytecode says. -/
theorem depth?_ahead {n : Nat} (hc : c.Reached) (hd : c.flow.depth? c.pc = some d)
    (hfall : c.Falls n) : ∃ d' : Nat, c.flow.depth? (c.pc + n) = some d' ∧
      (d' : Int) = d + effectOf c.function.code c.pc n := by
  induction n with
  | zero => exact ⟨d, hd, by rw [effectOf_zero, Int.add_zero]⟩
  | succ n ih =>
    obtain ⟨d', hd', heq⟩ := ih fun k hk => hfall k (Nat.lt_succ_of_lt hk)
    obtain ⟨i, hi, ht⟩ := hfall n (Nat.lt_succ_self n)
    obtain ⟨huses, hnext⟩ := hc.settled.fall hd' hi ht
    refine ⟨_, hnext, ?_⟩
    rw [delta_eq huses rfl, heq, effectOf_concat hi, Int.add_assoc]

/-- After a complete operation the compiler is between two operations again. -/
theorem between_of_completes {s' : Compilation} {σ' : Sketch} {n : Nat} (hc : c.Reached)
    (hd : c.flow.depth? c.pc = some d) (hs : s.Entered c d σ) (hs' : s'.Typed c σ')
    (hlabels : s'.labels = s.labels) (hprec : σ.Precedes σ') (hcompl : Completes c σ n σ')
    {last : Instr} (hlast : c.function.code[c.pc + n]? = some last) :
    s'.Between c (c.pc + n + 1) (!last.isTerminator) σ' := by
  obtain ⟨i, hi, hterm⟩ := hcompl.last
  cases hi.symm.trans hlast
  refine ⟨hs', hcompl.clean, hprec.argCount.trans hs.holds.argCount,
    hprec.localCount.trans hs.holds.localCount, fun hlive => ?_, fun hdead => ?_, nofun, ?_⟩
  · obtain ⟨d', hd', heq⟩ := depth?_ahead hc hd (hcompl.falls.succ hi (by simpa using hlive))
    refine ⟨d', hd', ?_⟩
    have heffect := hcompl.effect
    have hsp := hs.holds.sp
    have hbase := hprec.stackBase
    lia
  · exact hterm (by simpa using hdead)
  · rw [Nat.add_right_comm]
    refine (hs.labelled.mono hlabels hprec.targets).skip (Nat.succ_pos _) fun k hk hj => ?_
    have := hcompl.absorbed k hk
    rw [Nat.add_right_comm] at this
    rw [hj.1] at this
    cases this

section Equations

variable {f : Function} {pc : Nat} {i : Instr}

/-- Instructions that are not reached are left out. -/
theorem compileFrom_skip (hi : f.code[pc]? = some i) (hd : c.flow.depth? pc = none) :
    compileFrom f pc live c s = compileFrom f (pc + 1) false c s := by
  obtain ⟨hpc, rfl⟩ := Array.getElem?_eq_some_iff.1 hi
  rw [compileFrom, dif_pos hpc]
  refine bind_ok rfl ?_
  rw [hd]

/-- One instruction, and then the rest. -/
theorem compileFrom_step (hi : f.code[pc]? = some i) (hd : c.flow.depth? pc = some d) :
    compileFrom f pc live c s =
      match (enter d live >>= fun _ => compileOp i d) { c with pc } s with
      | .ok n s' => compileFrom f (pc + n + 1) (!(f.code[pc + n]?.getD i).isTerminator) c s'
      | .error e s' => .error e s' := by
  obtain ⟨hpc, rfl⟩ := Array.getElem?_eq_some_iff.1 hi
  rw [compileFrom, dif_pos hpc]
  refine bind_ok rfl ?_
  simp only [hd]
  have hreader : withReader ({ · with pc }) (enter d live >>= fun _ => compileOp f.code[pc] d) c s =
      (enter d live >>= fun _ => compileOp f.code[pc] d) { c with pc } s := rfl
  rw [bind_run, hreader]
  cases (enter d live >>= fun _ => compileOp f.code[pc] d) { c with pc } s <;> rfl

theorem compileFrom_end (hpc : f.code.size ≤ pc) : compileFrom f pc false c s = .ok () s := by
  rw [compileFrom, dif_neg (Nat.not_lt.2 hpc)]
  rfl

end Equations

/-- Control does not fall into an instruction that is not reached. -/
theorem between_skip {pc : Nat} (hentry : c.flow.depth? 0 = some 0) (hs : s.Between c pc live σ)
    (hd : c.flow.depth? pc = none) : live = false ∧ s.Between c (pc + 1) false σ := by
  have hdead : live = false := by
    by_contra hlive
    obtain ⟨d, hd', -⟩ := hs.depth (by simpa using hlive)
    cases hd.symm.trans hd'
  have hpos : 0 < pc := Nat.pos_of_ne_zero fun h => by
    rw [h, hentry] at hd
    cases hd
  refine ⟨hdead, hs.typed, hs.clean, hs.argCount, hs.localCount, nofun, fun _ => hs.closed hdead,
    nofun, ?_⟩
  refine hs.labelled.skip hpos fun k hk hj => ?_
  obtain rfl := Nat.lt_one_iff.1 hk
  have := hj.2
  rw [Flow.isReachable, Nat.add_zero, hd] at this
  cases this

/-- An instruction that is reached and not flawed is compiled. -/
theorem between_step {pc : Nat} {i : Instr} (hv : c.function.validate = .ok ())
    (hset : c.flow.Settled c.function []) (hs : s.Between c pc live σ)
    (hi : c.function.code[pc]? = some i) (hd : c.flow.depth? pc = some d) :
    ∃ s₁ σ₁, enter d live { c with pc } s = .ok () s₁ ∧ s₁.Entered { c with pc } d σ₁ ∧
      (¬ c.Flawed i d → ∃ n last s₂ σ₂, compileOp i d { c with pc } s₁ = .ok n s₂ ∧
        c.function.code[pc + n]? = some last ∧ s₂.Between c (pc + n + 1)
        (!last.isTerminator) σ₂) := by
  have hc : Context.Reached { c with pc } := ⟨hset, Option.isSome_of_eq_some hd⟩
  obtain ⟨hpc, -⟩ := Array.getElem?_eq_some_iff.1 hi
  obtain ⟨s₁, σ₁, henter, hs₁⟩ := enter_run (c := { c with pc }) (hs.atPc pc) hd
    (hset.visited pc d hd).1 hpc
  refine ⟨s₁, σ₁, henter, hs₁, fun hflaw => ?_⟩
  obtain ⟨n, s₂, σ₂, hop, hs₂, hlabels, hprec, hcompl⟩ :=
    compileOp_run hc hv hi hd hflaw hs₁.clean hs₁.holds hs₁.typed
  obtain ⟨last, hlast, -⟩ := hcompl.last
  exact ⟨n, last, s₂, σ₂, hop, hlast,
    (between_of_completes hc hd hs₁ hs₂ hlabels hprec hcompl hlast).atPc c.pc⟩

/-- The compiler gets to the end of the function, or stops at a flawed instruction. -/
theorem compileFrom_run {pc : Nat} (hv : c.function.validate = .ok ())
    (hset : c.flow.Settled c.function []) (hentry : c.flow.depth? 0 = some 0)
    (hs : s.Between c pc live σ) :
    (∃ s' σ', compileFrom c.function pc live c s = .ok () s' ∧ s'.Finished c σ') ∨
    ((∃ e s', compileFrom c.function pc live c s = .error e s') ∧ c.Stuck) := by
  have hlt : ∀ n, c.Jumps n ∨ n = 0 → n < c.function.code.size := by
    intro n hn
    obtain ⟨d, hd⟩ : ∃ d, c.flow.depth? n = some d := by
      rcases hn with hn | rfl
      · exact Option.isSome_iff_exists.1 hn.2
      · exact ⟨0, hentry⟩
    obtain ⟨-, i, -, hi, -⟩ := hset.visited n d hd
    exact (Array.getElem?_eq_some_iff.1 hi).1
  induction hn : c.function.code.size - pc using Nat.strongRecOn generalizing pc live s σ with
  | ind n ih =>
    subst hn
    cases hi : c.function.code[pc]? with
    | none =>
      -- Control does not fall off the end, since what it falls through to has a depth.
      have hend := Array.getElem?_eq_none_iff.1 hi
      cases live with
      | false =>
        refine .inl ⟨s, σ, compileFrom_end hend, hs.typed, hs.clean, hs.closed rfl, ?_⟩
        exact fun n hn => hs.labelled.label n (Nat.lt_of_lt_of_le (hlt n hn) hend) hn
      | true =>
        obtain ⟨d, hd, -⟩ := hs.depth rfl
        obtain ⟨-, i, -, hi', -⟩ := hset.visited pc d hd
        cases hi.symm.trans hi'
    | some i =>
      obtain ⟨hpc, -⟩ := Array.getElem?_eq_some_iff.1 hi
      cases hd : c.flow.depth? pc with
      | none =>
        rw [compileFrom_skip hi hd]
        exact ih _ (by lia) (between_skip hentry hs hd).2 rfl
      | some d =>
        obtain ⟨s₁, σ₁, henter, hs₁, hstep⟩ := between_step hv hset hs hi hd
        rw [compileFrom_step hi hd, bind_run, henter]
        by_cases hflaw : c.Flawed i d
        · refine .inr ⟨?_, pc, d, i, hd, hi, hflaw⟩
          dsimp only
          cases hop : compileOp i d { c with pc } s₁ with
          | ok n s₂ => exact absurd hop (compileOp_flawed hi hflaw)
          | error e s₂ => exact ⟨e, s₂, rfl⟩
        · obtain ⟨n, last, s₂, σ₂, hop, hlast, hs₂⟩ := hstep hflaw
          simp only [hop, hlast]
          exact ih _ (by lia) hs₂ rfl

end CompileM

/-! ### Finishing the code -/

namespace Compilation.Finished

variable {s : Compilation} {c : Context} {σ : Sketch}

/-- Every branch has a link. -/
theorem named (h : s.Finished c σ) {l : Label} (hl : s.asm.buffer.IsBranch l) :
    ∃ k ∈ s.asm.buffer.links, k.jump = l := by
  rcases h.typed.asm.books.branch l hl with hk | ho | he
  · exact hk
  · rw [h.clean.opens] at ho
    cases ho
  · rw [h.typed.asm.books.hasExits_eq_false h.clean.waiting] at he
    exact absurd he (Array.not_mem_empty l)

/-- No branch has two links. -/
theorem links_le (h : s.Finished c σ) : s.asm.buffer.links.size ≤ s.asm.buffer.branchCount := by
  have := h.typed.asm.books.tally
  omega

/-- Every link leads from a branch to a label that needs no more registers. -/
theorem link (h : s.Finished c σ) {k : Link} (hk : k ∈ s.asm.buffer.links) (n : Nat) :
    ∃ l S T, k.target.resolve s.labels n = l.absolute n ∧ (k.jump, S) ∈ σ.sites ∧
      (l, T) ∈ σ.targets ∧ S.Covers T := by
  obtain ⟨S, hS, htarget⟩ := h.typed.asm.books.link k hk
  split at htarget
  · next l hl =>
    obtain ⟨T, hT, hc⟩ := htarget
    exact ⟨l, S, T, by rw [hl]; rfl, hS, hT, hc⟩
  · next m hm =>
    obtain ⟨l, hl, hT⟩ := h.label m (.inl htarget)
    refine ⟨l, S, .none, ?_, hS, hT, Shape.covers_none S⟩
    rw [hm, LinkTarget.resolve, hl]
    rfl

/-- A label is not behind the end of the code. -/
theorem position_le (h : s.Finished c σ) {l : Label} {T : Shape} (hl : (l, T) ∈ σ.targets) :
    l.position s.asm.buffer.fast.size ≤ s.asm.buffer.laidOut.size := by
  obtain ⟨Γ, hΓ⟩ := h.typed.asm.typing
  have hle := (hΓ.target l T hl).1
  rw [← hΓ.size] at hle
  rw [laidOut, Array.size_append]
  obtain ⟨st, o⟩ := l
  cases st with
  | fast => exact Nat.le_add_right_of_le hle
  | slow => exact Nat.add_le_add_left hle _

/-- Code that has been compiled can be finished, unless it is too long for its addresses. -/
theorem finish_run (h : s.Finished c σ) (hsize : s.asm.buffer.laidOut.size < Inst.unlinked) :
    ∃ code, s.finish c = .ok code := by
  obtain ⟨Γ, hΓ⟩ := h.typed.asm.typing
  obtain ⟨insts, hinsts⟩ := finish_isOk s.labels hsize
    (fun l g t hl => h.named ⟨g, t, hl⟩) fun k hk => by
      obtain ⟨l, S, T, hres, hS, hT, -⟩ := h.link hk s.asm.buffer.fast.size
      exact ⟨(hΓ.site k.jump S hS).1, l, hres, h.position_le hT⟩
  obtain ⟨sites, hsites⟩ : ∃ sites,
      s.asm.slow.calls.mapM (siteOf s.asm.buffer.fast.size) = .ok sites := by
    obtain ⟨l, hl⟩ := exists_mapM_ok (g := siteOf s.asm.buffer.fast.size)
      (l := s.asm.slow.calls.toList) fun k hk => by
        obtain ⟨i, hi⟩ := List.getElem?_of_mem hk
        have hsome := h.typed.asm.books.complete i k (by simpa using hi) (.inr h.clean.pending)
        obtain ⟨m, hm⟩ := Option.isSome_iff_exists.1 hsome
        exact ⟨_, by rw [siteOf, hm]⟩
    exact ⟨l.toArray, by rw [Array.mapM_eq_mapM_toList, hl]; rfl⟩
  unfold Compilation.finish
  rw [hinsts]
  simp only [bind, Except.bind, hsites]
  exact ⟨_, rfl⟩

end Compilation.Finished

/-! ### Whole functions -/

section

variable {function : Function} {heap : Heap} {oracle : Oracle} {hoister : Hoister}
  {config : Config} {flow : Flow}

theorem compile_eq (hv : function.validate = .ok ())
    (hflow : Flow.analyze function = .ok flow) :
    compile function heap oracle hoister config =
      compileWith ⟨function, heap, oracle, hoister, config, flow, 0⟩ := by
  rw [compile, hv]
  simp only [hflow]

/-- The code is finished after the last instruction, unless a flawed one has been met. -/
theorem compileWith_run {c : Context} (hv : c.function.validate = .ok ())
    (hflow : Flow.analyze c.function = .ok c.flow) :
    (∃ s σ, compileFrom c.function 0 true c (.start c) = .ok () s ∧
      Compilation.Finished s c σ ∧ compileWith c = (s.finish c).map fun code => ⟨code, s.queries⟩) ∨
    ((∃ e, compileWith c = .error e) ∧ c.Stuck) := by
  obtain ⟨hset, hentry⟩ := Flow.analyze_settled hflow
  obtain ⟨σ, hstart⟩ := Compilation.start_between hentry
  rcases compileFrom_run hv hset hentry hstart with
    ⟨s, σ', hrun, hs⟩ | ⟨⟨e, s, hrun⟩, hstuck⟩
  · exact .inl ⟨s, σ', hrun, hs, by rw [compileWith, hrun]⟩
  · exact .inr ⟨⟨e, by rw [compileWith, hrun]⟩, hstuck⟩

/-- Code that has been compiled comes from a compilation that got to its end. -/
theorem finished_of_compile {compiled : Compiled}
    (h : compile function heap oracle hoister config = .ok compiled) :
    ∃ (c : Context) (s : Compilation) (σ : Sketch), s.Finished c σ ∧
      s.finish c = .ok compiled.code := by
  cases hv : function.validate with
  | error e =>
    rw [compile, hv] at h
    cases h
  | ok u =>
    cases hflow : Flow.analyze function with
    | error e =>
      rw [compile, hv] at h
      simp only [hflow] at h
      cases h
    | ok flow =>
      rw [compile_eq hv hflow] at h
      rcases compileWith_run (c := ⟨function, heap, oracle, hoister, config, flow, 0⟩)
        hv hflow with ⟨s, σ, -, hs, hrun⟩ | ⟨⟨e, hrun⟩, -⟩
      · rw [hrun] at h
        cases hfinish : s.finish _ with
        | error e =>
          rw [hfinish] at h
          cases h
        | ok code =>
          rw [hfinish] at h
          cases h
          exact ⟨_, s, σ, hs, hfinish⟩
      · rw [hrun] at h
        cases h

/-- **Well-formed functions are compiled**, whatever the oracle, the hoister and the switches
are: if the function is valid, its control flow can be analyzed, no return finds an empty stack
and the heap has the strings of the function, then the compiler gets to the end. The one thing that
can keep it from finishing the code is that there are more instructions than addresses. -/
theorem compile_isOk (hv : function.validate = .ok ())
    (hflow : Flow.analyze function = .ok flow)
    (hret : ∀ pc d, flow.depth? pc = some d → function.code[pc]? = some .ret → 1 ≤ d)
    (hstrings : ∀ k text, function.stringConstant? k = some text →
      (heap.findString? text).isSome) :
    ∃ s, compileFrom function 0 true ⟨function, heap, oracle, hoister, config, flow, 0⟩
        (.start ⟨function, heap, oracle, hoister, config, flow, 0⟩) = .ok () s ∧
      (s.asm.buffer.laidOut.size < Inst.unlinked →
        ∃ compiled, compile function heap oracle hoister config = .ok compiled) := by
  rw [compile_eq hv hflow]
  rcases compileWith_run (c := ⟨function, heap, oracle, hoister, config, flow, 0⟩) hv hflow with
    ⟨s, σ, hrun, hs, hfinish⟩ | ⟨-, pc, d, i, hd, hi, hflaw⟩
  · refine ⟨s, hrun, fun hsize => ?_⟩
    obtain ⟨code, hcode⟩ := hs.finish_run hsize
    exact ⟨⟨code, s.queries⟩, by rw [hfinish, hcode]; rfl⟩
  · rcases hflaw with ⟨rfl, rfl⟩ | ⟨k, text, rfl, htext, hnone⟩
    · exact absurd (hret pc 0 hd hi) (by decide)
    · have hsome := hstrings k.toNat text htext
      rw [show heap.findString? text = none from hnone] at hsome
      cases hsome

end

/-! ### An example -/

namespace CompileM

/-- The compiler with its first `n` steps laid open, so that they can be evaluated. -/
def compileFor (f : Function) : Nat → Nat → Bool → CompileM Unit
  | 0, pc, live => compileFrom f pc live
  | n + 1, pc, live => do
    if h : pc < f.code.size then
      match (← read).flow.depth? pc with
      | none => compileFor f n (pc + 1) false
      | some depth =>
        let absorbed ← withReader ({ · with pc }) do
          enter depth live
          compileOp f.code[pc] depth
        let last := f.code[pc + absorbed]?.getD f.code[pc]
        compileFor f n (pc + absorbed + 1) (!last.isTerminator)
    else if live then throw (.flow (.fallsOffEnd (f.code.size - 1)))

theorem compileFor_eq (f : Function) (n pc : Nat) (live : Bool) :
    compileFor f n pc live = compileFrom f pc live := by
  induction n generalizing pc live with
  | zero => rfl
  | succ n ih =>
    have hn : compileFor f n = compileFrom f := funext₂ ih
    rewrite [compileFor, compileFrom, hn]
    rfl

end CompileM

/-- Adds one to its argument: an inline path with guards, and a slow path. -/
def increment : Function :=
  { Function.empty none 1 0 with
    code := #[.get (.arg 0), .push (.int32 1), .arith .add, .ret] }

/-- The control flow of that function. -/
def incrementFlow : Flow where
  depths := #[some 0, some 1, some 2, some 1]
  jumpTargets := Array.replicate 4 false
  loopHeads := Array.replicate 4 false
  maxDepth := 2

/-- What the compiler starts from. -/
def incrementContext : Context :=
  ⟨increment, .new, .silent, .never, .standard, incrementFlow, 0⟩

theorem analyze_increment : Flow.analyze increment = .ok incrementFlow := by
  open Flow in
  calc analyze increment
    _ = walk increment [(0, 0)] (unvisited 4) := rfl
    _ = walk increment [(1, 1)]
        { incrementFlow with depths := #[some 0, none, none, none], maxDepth := 1 } :=
      walk_of_unseen (v := ⟨none, [(1, 1)]⟩) rfl rfl rfl
    _ = walk increment [(2, 2)] { incrementFlow with depths := #[some 0, some 1, none, none] } :=
      walk_of_unseen (v := ⟨none, [(2, 2)]⟩) rfl rfl rfl
    _ = walk increment [(3, 1)] { incrementFlow with depths := #[some 0, some 1, some 2, none] } :=
      walk_of_unseen (v := ⟨none, [(3, 1)]⟩) rfl rfl rfl
    _ = walk increment [] incrementFlow := walk_of_unseen (v := ⟨none, []⟩) rfl rfl rfl
    _ = .ok incrementFlow := by rw [walk]

theorem compile_isOk_increment : increment.validate = .ok () ∧
    Flow.analyze increment = .ok incrementFlow ∧
    ∃ compiled, compile increment .new .silent .never .standard = .ok compiled := by
  have hv : increment.validate = .ok () := by decide +kernel
  have hret : ∀ pc d, incrementFlow.depth? pc = some d → increment.code[pc]? = some .ret →
      1 ≤ d := by
    intro pc d hd hi
    match pc with
    | 0 | 1 | 2 => cases hi
    | 3 =>
        cases hd
        decide
    | n + 4 => cases hi
  obtain ⟨s, hrun, hcompile⟩ := compile_isOk hv analyze_increment hret nofun
  refine ⟨hv, analyze_increment, hcompile ?_⟩
  have hshort : (match compileFor increment 5 0 true incrementContext
      (.start incrementContext) with
    | .ok () s => decide (s.asm.buffer.laidOut.size < Inst.unlinked)
    | .error _ _ => false) = true := by decide +kernel
  rw [compileFor_eq] at hshort
  simp only [show compileFrom increment 0 true incrementContext (.start incrementContext) = _
    from hrun, decide_eq_true_eq] at hshort
  exact hshort

end FastPath
