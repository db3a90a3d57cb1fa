import FastPath.Proofs.Compile.Sketch

/-!
# What emitters deliver

`AsmM.Delivers` takes a sketch through an emitter: the emitter succeeds, and what it leaves
behind agrees with a new sketch. There is one rule for each primitive of the assembler. The
rules for tracker operations carry over what is known about them: an operation that loads
decides which registers have contents afterwards, and one that emits nothing, or only stores,
leaves that alone.

Between two operations nothing is on loan, no guard waits and no branch is open: the sketch is
`Clean`.

## Main results

* `AsmM.delivers_bind` and its companions: one rule for each way to build an emitter.
* `AsmM.rejoin_delivers`: after the slow path has merged back the sketch is clean.
-/

namespace FastPath

open Sketch

/-- An instruction that is no call leaves what had contents. -/
theorem Inst.after_covers_self {i : Inst} (h : i.isCall = false) (P : Shape) :
    (i.after P).Covers P := by
  cases i with
  | branch g t =>
    cases g with
    | always => exact Shape.all_covers P
    | truncate _ dst | convert _ dst => exact P.withReg_covers dst
    | loadPacked _ _ tag payload =>
      exact (Shape.withReg_covers _ payload).trans (P.withReg?_covers tag)
    | _ => exact .refl P
  | ret v => exact Shape.all_covers P
  | loadElement _ _ tag payload | loadNamed _ _ tag payload =>
    exact (Shape.withReg_covers _ payload).trans (P.withReg?_covers tag)
  | callStub _ _ _ => cases h
  | callCache _ _ _ => cases h
  | _ => first | exact .refl P | exact P.withReg_covers _ | exact P.withFReg_covers _

namespace Sketch

/-- No branch is open, no call is incomplete, and the slow stream cannot be reached from what
is before its end. -/
structure Tidy (σ : Sketch) : Prop where
  slow : σ.shape .slow = Shape.all
  opens : σ.opens = []
  pending : σ.pending = false

/-- No guard waits either. -/
structure Quiet (σ : Sketch) : Prop extends Tidy σ where
  waiting : σ.waiting = false

/-- Nothing is on loan either. -/
structure Clean (σ : Sketch) : Prop extends Quiet σ where
  loans : σ.loans = Loans.none

/-- Branches, calls and guards do not depend on the frame. -/
theorem Clean.reframe {σ : Sketch} (h : σ.Clean) (f : Frame) {L : Loans} (hL : L = Loans.none) :
    (σ.reframe f L).Clean :=
  ⟨⟨⟨h.slow, h.opens, h.pending⟩, h.waiting⟩, hL⟩

/-- Nor do they depend on which registers have contents in the fast stream. -/
theorem Clean.weaken {σ : Sketch} (h : σ.Clean) (P : Shape) : (σ.weaken .fast P).Clean :=
  ⟨⟨⟨h.slow, h.opens, h.pending⟩, h.waiting⟩, h.loans⟩

/-- Tracker operations have loaded registers; only those that should have contents are known
to have them. -/
structure Loads (σ σ' : Sketch) : Prop where
  fast : σ'.shape .fast = σ'.loans.shape σ'.frame
  slow : σ'.shape .slow = σ.shape .slow
  opens : σ'.opens = σ.opens
  waiting : σ'.waiting = σ.waiting
  pending : σ'.pending = σ.pending

/-- The frame may have changed, but no register has lost its contents. -/
structure Reframes (σ σ' : Sketch) : Prop where
  base : σ'.frame.stackBase = σ.frame.stackBase
  shape : σ'.shape = σ.shape
  opens : σ'.opens = σ.opens
  waiting : σ'.waiting = σ.waiting
  pending : σ'.pending = σ.pending

theorem Reframes.refl (σ : Sketch) : σ.Reframes σ := ⟨rfl, rfl, rfl, rfl, rfl⟩

variable {σ σ' : Sketch}

theorem Loads.quiet (h : σ.Loads σ') (hq : σ.Quiet) : σ'.Quiet :=
  ⟨⟨h.slow.trans hq.slow, h.opens.trans hq.opens, h.pending.trans hq.pending⟩,
    h.waiting.trans hq.waiting⟩

theorem Reframes.quiet (h : σ.Reframes σ') (hq : σ.Quiet) : σ'.Quiet :=
  ⟨⟨(congrFun h.shape .slow).trans hq.slow, h.opens.trans hq.opens, h.pending.trans hq.pending⟩,
    h.waiting.trans hq.waiting⟩

end Sketch

namespace AsmM

variable {α β : Type} {J : Nat → Prop} {D : Nat} {σ : Sketch}

/-- The emitter succeeds, and what it leaves behind agrees with a sketch that satisfies `Q`. -/
def Delivers (J : Nat → Prop) (D : Nat) (x : AsmM α) (σ : Sketch) (Q : α → Sketch → Prop) : Prop :=
  ∀ a : Assembly, a.Typed J D σ → ∃ v a' σ', x a = .ok v a' ∧ a'.Typed J D σ' ∧ σ.Grows σ' ∧ Q v σ'

/-! ### Structural rules -/

variable {x : AsmM α} {v : α} {P S T : Shape} {s : Stream} {Q : Unit → Sketch → Prop} {j : Jump}
  {l : Label} {is : List Inst} {stub : Stub} {arg : Int64} {changes : Nat} {a : Assembly}
  {code : Array Inst} {R : α → Frame → Loans → Prop}

theorem Delivers.mono {Q Q' : α → Sketch → Prop} (h : Delivers J D x σ Q)
    (hQ : ∀ v σ', Q v σ' → Q' v σ') : Delivers J D x σ Q' := by
  intro a ha
  obtain ⟨v, a', σ', hx, ha', hg, hq⟩ := h a ha
  exact ⟨v, a', σ', hx, ha', hg, hQ v σ' hq⟩

theorem delivers_pure {Q : α → Sketch → Prop} (h : Q v σ) : Delivers J D (pure v) σ Q :=
  fun a ha => ⟨v, a, σ, rfl, ha, .refl σ, h⟩

theorem delivers_bind {k : α → AsmM β} {Q : β → Sketch → Prop}
    (h : Delivers J D x σ fun v σ' => Delivers J D (k v) σ' Q) : Delivers J D (x >>= k) σ Q := by
  intro a ha
  obtain ⟨v, a', σ', hx, ha', hg, hk⟩ := h a ha
  obtain ⟨w, a'', σ'', hy, ha'', hg', hq⟩ := hk a' ha'
  exact ⟨w, a'', σ'', by rw [bind_run, hx]; exact hy, ha'', hg.trans hg', hq⟩

/-- What holds of every frame that is being compiled may be used. -/
theorem delivers_ready {Q : α → Sketch → Prop}
    (h : σ.frame.Ready D σ.loans → (σ.shape .fast).Covers (σ.loans.shape σ.frame) →
      Delivers J D x σ Q) : Delivers J D x σ Q :=
  fun a ha => h ha.ready ha.fast a ha

/-- Fewer registers may be assumed at the end of a stream. -/
theorem delivers_weaken {Q : α → Sketch → Prop} (s : Stream) (hP : (σ.shape s).Covers P)
    (hfast : s = .fast → P.Covers (σ.loans.shape σ.frame)) (h : Delivers J D x (σ.weaken s P) Q) :
    Delivers J D x σ Q := by
  intro a ha
  obtain ⟨v, a', σ', hx, ha', hg, hq⟩ := h a (ha.weaken hP hfast)
  exact ⟨v, a', σ', hx, ha', ⟨⟨hg.argCount, hg.localCount, hg.sites, hg.targets⟩, hg.caches⟩, hq⟩

/-- A step that changes the assembly in one way. -/
theorem delivers_of_step {Q : α → Sketch → Prop} (step : Assembly → Assembly) (σ' : Sketch)
    (hx : ∀ a, a.Typed J D σ → x a = .ok v (step a))
    (ht : ∀ a, a.Typed J D σ → (step a).Typed J D σ') (hg : σ.Grows σ') (h : Q v σ') :
    Delivers J D x σ Q :=
  fun a ha => ⟨v, step a, σ', hx a ha, ht a ha, hg, h⟩

/-! ### Queries -/

theorem frame_delivers {Q : Frame → Sketch → Prop} (h : Q σ.frame σ) :
    Delivers J D frame σ Q :=
  fun a ha => ⟨σ.frame, a, σ, by rw [← ha.books.frame]; rfl, ha, .refl σ, h⟩

theorem hasExits_delivers {Q : Bool → Sketch → Prop} (h : Q σ.waiting σ) :
    Delivers J D hasExits σ Q :=
  fun a ha => ⟨σ.waiting, a, σ, by rw [← ha.books.waiting]; rfl, ha, .refl σ, h⟩

theorem label_delivers {Q : Label → Sketch → Prop} (h : Q (σ.label s) (σ.mark s)) :
    Delivers J D (label s) σ Q := by
  intro a ha
  refine ⟨σ.label s, a, σ.mark s, ?_, ha.mark s,
    .of_code rfl (List.Subset.refl _) (List.subset_cons_self _ _) rfl, h⟩
  rw [← ha.label_eq]
  rfl

/-! ### Emitting -/

/-- An instruction that reads registers with contents. -/
theorem emit_delivers {i : Inst} (ht : i.target? = none) (hc : i.isCall = false)
    (hr : i.Reads (σ.frame.limit D) (σ.shape s)) (h : Q () (σ.emit s i)) :
    Delivers J D (emit s i) σ Q := by
  refine delivers_of_step _ (σ.emit s i) (fun _ _ => rfl) (fun a ha => ?_)
    (.of_code rfl (List.Subset.refl _) (List.Subset.refl _) rfl) h
  obtain ⟨Γ, hΓ⟩ := ha.typing
  refine ⟨ha.ready, ?_, ha.books.emit ht hc _, _, hΓ.emit hr⟩
  cases s with
  | fast =>
    simp only [Sketch.emit, Sketch.append, Function.update_self]
    exact (Inst.after_covers_self hc _).trans ha.fast
  | slow => simpa [Sketch.emit, Sketch.append] using ha.fast

/-- A branch is open until it is linked. -/
theorem branch_delivers {g : Guard} {Q : Jump → Sketch → Prop}
    (hr : g.Reads (σ.frame.limit D) (σ.shape s)) (h : Q (σ.label s) (σ.branch s g)) :
    Delivers J D (branch s g) σ Q := by
  intro a ha
  obtain ⟨Γ, hΓ⟩ := ha.typing
  refine ⟨σ.label s, _, σ.branch s g, ?_, ⟨ha.ready, ?_,
    ha.books.emitBranch (hΓ.label_eq s) g, _, hΓ.branch hr⟩,
    .of_code rfl (List.subset_cons_self _ _) (List.Subset.refl _) rfl, h⟩
  · rw [← hΓ.label_eq]
    rfl
  · cases s with
    | fast =>
      simp only [Sketch.branch, Sketch.append, Function.update_self]
      exact (Inst.after_covers_self (i := .branch g Inst.unlinked) rfl _).trans ha.fast
    | slow => simpa [Sketch.branch, Sketch.append] using ha.fast

/-! ### Linking -/

/-- A link closes a jump. -/
theorem delivers_close {x : AsmM Unit} {t : LinkTarget}
    (hx : ∀ a : Assembly, x a = .ok () { a with buffer := a.buffer.link j t }) (ho : j ∈ σ.opens)
    (hl : σ.Leads J ⟨j, t⟩) (h : Q () (σ.close j)) : Delivers J D x σ Q := by
  refine delivers_of_step _ (σ.close j) (fun a _ => hx a) (fun a ha => ?_)
    (.of_code rfl (List.Subset.refl _) (List.Subset.refl _) rfl) h
  obtain ⟨Γ, hΓ⟩ := ha.typing
  exact ⟨ha.ready, ha.fast, ha.books.linkTo ho hl, Γ,
    hΓ.congr (fun s => by cases s <;> rfl) rfl rfl rfl rfl⟩

theorem link_delivers (ho : j ∈ σ.opens) (hj : (j, S) ∈ σ.sites) (hl : (l, T) ∈ σ.targets)
    (hc : S.Covers T) (h : Q () (σ.close j)) : Delivers J D (link j l) σ Q :=
  delivers_close (fun _ => rfl) ho ⟨S, hj, T, hl, hc⟩ h

theorem linkPc_delivers {n : Nat} (ho : j ∈ σ.opens) (hj : (j, S) ∈ σ.sites) (hn : J n)
    (h : Q () (σ.close j)) : Delivers J D (linkPc j n) σ Q :=
  delivers_close (fun _ => rfl) ho ⟨S, hj, hn⟩ h

/-- All jumps that wait are led to one label. -/
theorem linkAll_delivers {js js' : List Jump} (ho : σ.opens.Perm (js ++ js'))
    (hj : ∀ j ∈ js, ∃ S, (j, S) ∈ σ.sites ∧ S.Covers T) (hl : (l, T) ∈ σ.targets)
    (h : Q () { σ with opens := js' }) : Delivers J D (linkAll js l) σ Q := by
  refine delivers_of_step _ { σ with opens := js' } (fun _ _ => rfl)
    (fun a ha => ?_) (.of_code rfl (List.Subset.refl _) (List.Subset.refl _) rfl) h
  obtain ⟨Γ, hΓ⟩ := ha.typing
  refine ⟨ha.ready, ha.fast, ha.books.linkAll ho fun j hmem => ?_, Γ,
    hΓ.congr (fun s => Books.stream_linkAll ..) rfl rfl rfl rfl⟩
  obtain ⟨S, hS, hc⟩ := hj j hmem
  exact ⟨S, hS, T, hl, hc⟩

theorem get_run (a : Assembly) : (get : AsmM Assembly) a = .ok a a := rfl

/-- A guard waits for the slow path. -/
theorem linkExit_delivers (ho : j ∈ σ.opens) (hj : (j, S) ∈ σ.sites) (hS : S.Covers σ.frame.bound)
    (h : Q () (σ.await j)) : Delivers J D (linkExit j) σ Q := by
  refine delivers_of_step (fun a => { a with
      slow := { a.slow with
        exits := a.slow.exits.push j, exitGeneration := some σ.frame.generation } }) (σ.await j)
    (fun a ha => ?_) (fun a ha => ?_) (.of_code rfl (List.Subset.refl _) (List.Subset.refl _) rfl) h
  · have hgen : a.slow.exitGeneration.any (· ≠ a.frame.generation) = false := by
      rw [ha.books.generation, ha.books.frame]
      split <;> simp
    simp only [linkExit, bind_run, get_run, hgen, Bool.false_eq_true, if_false, ← ha.books.frame]
    rfl
  · obtain ⟨Γ, hΓ⟩ := ha.typing
    exact ⟨ha.ready, ha.fast, ha.books.linkExit ho hj hS, Γ,
      hΓ.congr (fun _ => rfl) rfl rfl rfl rfl⟩

/-! ### Slow paths -/

theorem emitAll_delivers (hb : Block (σ.frame.limit D) is (σ.shape s) P)
    (hfast : s = .fast → P.Covers (σ.loans.shape σ.frame)) (h : Q () (σ.append s is.length P)) :
    Delivers J D (emitAll s is) σ Q :=
  delivers_of_step _ _ (fun _ _ => rfl) (fun _ ha => ha.emitAll hb hfast)
    (.of_code rfl (List.Subset.refl _) (List.Subset.refl _) rfl) h

/-- Leading the waiting guards to code that stores the frame. -/
theorem leave_delivers {Q : Label → Sketch → Prop} (hslow : (σ.shape .slow).Covers σ.frame.bound)
    (h : ∀ n, Q (σ.label .slow) (σ.leave n)) : Delivers J D leave σ Q := by
  intro a ha
  refine ⟨σ.label .slow, { a with
    buffer := (a.buffer.linkAll a.slow.exits.toList (σ.label .slow)).emitAll .slow a.frame.syncCode
    slow := { a.slow with exits := #[], exitGeneration := none } },
    σ.leave a.frame.syncCode.length, ?_, ?_,
    .of_code rfl (List.Subset.refl _) (List.subset_cons_self _ _) rfl, h _⟩
  · have hgen : a.slow.exitGeneration.any (· ≠ a.frame.generation) = false := by
      rw [ha.books.generation, ha.books.frame]
      split <;> simp
    have hlabel : (label .slow : AsmM Label) a = .ok (σ.label .slow) a := by
      rw [← ha.label_eq]
      rfl
    simp only [leave, bind_run, get_run, hgen, Bool.false_eq_true, if_false, hlabel]
    rfl
  · have hmark := (ha.weaken (s := .slow) hslow nofun).mark .slow
    obtain ⟨Γ, hΓ⟩ := hmark.typing
    have hbound : ((σ.weaken .slow σ.frame.bound).mark .slow).shape .slow = σ.frame.bound := by
      simp [Sketch.weaken, Sketch.mark]
    have hleft : ({ a with
        buffer := a.buffer.linkAll a.slow.exits.toList (σ.label .slow)
        slow := { a.slow with exits := #[], exitGeneration := none } } : Assembly).Typed J D
        { (σ.weaken .slow σ.frame.bound).mark .slow with waiting := false } := by
      refine ⟨hmark.ready, hmark.fast, hmark.books.leave (T := σ.frame.bound) ?_ (.refl _), Γ,
        hΓ.congr (fun s => Sketch.Books.stream_linkAll ..) rfl rfl rfl rfl⟩
      simp [Sketch.weaken, Sketch.mark, Sketch.label]
    have hblock : Block (σ.frame.limit D) a.frame.syncCode
        (((σ.weaken .slow σ.frame.bound).mark .slow).shape .slow) σ.frame.bound := by
      rw [ha.books.frame, hbound]
      exact ha.ready.block_syncCode (.refl _)
    convert hleft.emitAll (s := .slow) hblock nofun using 1
    simp [Sketch.leave, Sketch.append, Sketch.weaken, Sketch.mark, Sketch.label]

/-- A stub call in either stream. It keeps no register. -/
theorem emitCall_delivers {Q : Label → Sketch → Prop}
    (hfast : s = .fast → Shape.result.Covers (σ.loans.shape σ.frame))
    (h : Q (σ.label s) (σ.call s)) :
    Delivers J D (emitCall s fun sp => .callStub stub sp arg) σ Q := by
  intro a ha
  obtain ⟨Γ, hΓ⟩ := ha.typing
  have hbooks := ha.books.emitCall (s := s) (i := .callStub stub σ.frame.sp arg) rfl ha.ready.room
    .result [] (by simp) (by simp)
  rw [List.append_nil] at hbooks
  have hcode := hΓ.emit (s := s) (i := .callStub stub σ.frame.sp arg) trivial
  refine ⟨σ.label s, { a with
    buffer := a.buffer.emit s (.callStub stub σ.frame.sp arg)
    slow := a.slow.record (a.buffer.label s) σ.frame.sp }, σ.call s, ?_,
    ⟨ha.ready, ?_, hbooks, _, hcode.congr (fun _ => rfl) rfl rfl rfl rfl⟩,
    .of_code rfl (List.Subset.refl _) (List.Subset.refl _) rfl, h⟩
  · rw [← ha.label_eq, ← ha.books.frame]
    rfl
  · cases s with
    | fast => simpa [Sketch.call, Sketch.append] using hfast rfl
    | slow => simpa [Sketch.call, Sketch.append] using ha.fast

theorem slowCall_delivers (hslow : (σ.shape .slow).Covers σ.frame.bound)
    (h : ∀ n, Q () ((σ.leave n).call .slow)) : Delivers J D (slowCall stub arg) σ Q := by
  refine delivers_bind (leave_delivers hslow fun n => ?_)
  exact delivers_bind (emitCall_delivers nofun (delivers_pure (h n)))

/-- Completing the calls of the operation. -/
theorem complete_delivers {n : Nat} {rejoin : Option Label} (hn : n ≤ σ.frame.limit D)
    (h : Q () { σ with pending := false }) :
    Delivers J D (updateSlow (·.complete n changes rejoin)) σ Q := by
  refine delivers_of_step _ { σ with pending := false } (fun _ _ => rfl) (fun a ha => ?_)
    (.of_code rfl (List.Subset.refl _) (List.Subset.refl _) rfl) h
  obtain ⟨Γ, hΓ⟩ := ha.typing
  exact ⟨ha.ready, ha.fast, ha.books.completeCalls hn changes rejoin, Γ,
    hΓ.congr (fun _ => rfl) rfl rfl rfl rfl⟩

/-- After the slow path has merged back nothing is left open. -/
theorem rejoin_delivers (hw : σ.waiting = false) (hL : σ.loans = Loans.none) (ho : σ.opens = []) :
    Delivers J D (rejoin changes) σ fun _ σ' => σ'.Clean ∧ σ'.frame = σ.frame := by
  unfold rejoin
  refine delivers_bind (hasExits_delivers ?_)
  rw [hw]
  refine delivers_ready fun hready hfast => ?_
  have hbound : (Loans.none.shape σ.frame) = σ.frame.bound := by
    simp [Loans.shape, Loans.none, Frame.bound]
  rw [hL, hbound] at hfast
  -- only the registers of the frame are the same on both paths
  refine delivers_weaken .fast hfast (fun _ => by rw [hL, hbound]; exact .refl _) ?_
  refine delivers_bind (label_delivers ?_)
  refine delivers_bind (frame_delivers ?_)
  refine delivers_bind (emitAll_delivers (hready.block_mergeCode _) (by simp) ?_)
  refine delivers_bind (branch_delivers trivial ?_)
  refine delivers_bind (link_delivers (S := σ.frame.bound) (T := σ.frame.bound)
    List.mem_cons_self ?_ ?_ (.refl _) ?_)
  · simp [Sketch.branch, Sketch.append, Sketch.mark, Sketch.weaken]
  · simp [Sketch.branch, Sketch.append, Sketch.mark, Sketch.weaken, Sketch.label]
  · refine complete_delivers hready.room ⟨⟨⟨⟨?_, ?_, rfl⟩, hw⟩, hL⟩, rfl⟩
    · simp [Sketch.close, Sketch.branch, Sketch.append, Guard.after]
    · simp [Sketch.close, Sketch.branch, Sketch.append, Sketch.mark, Sketch.weaken, ho]

/-- Completing the calls in the fast stream. -/
theorem rejoinInline_delivers (hslow : σ.shape .slow = Shape.all) (ho : σ.opens = [])
    (hw : σ.waiting = false) (hL : σ.loans = Loans.none) :
    Delivers J D (rejoinInline changes) σ fun _ σ' => σ'.Clean ∧ σ'.frame = σ.frame := by
  refine delivers_ready fun hready _ => ?_
  refine delivers_bind (label_delivers (delivers_bind (frame_delivers ?_)))
  exact complete_delivers hready.room ⟨⟨⟨⟨hslow, ho, rfl⟩, hw⟩, hL⟩, rfl⟩

/-- An operation that leaves nothing open passes its own check. -/
theorem endOp_run (ha : a.Typed J D σ) (hw : σ.waiting = false) (hp : σ.pending = false) :
    endOp a = .ok () a := by
  have hexits : (hasExits : AsmM Bool) a = .ok false a := by
    rw [← hw, ← ha.books.waiting]
    rfl
  simp only [endOp, bind_run, hexits, get_run, ha.books.hasOpenCall_eq_false hp,
    Bool.false_eq_true, if_false]
  rfl

/-! ### Tracker operations -/

theorem emitAll_fast (b : CodeBuffer) (is : List Inst) :
    b.emitAll .fast is = { b with fast := is.foldl Array.push b.fast } := by
  induction is generalizing b with
  | nil => rfl
  | cons i is ih => exact ih (b.emit .fast i)

theorem emitAll_of_append {b : CodeBuffer} (h : code.toList = b.fast.toList ++ is) :
    b.emitAll .fast is = { b with fast := code } := by
  rw [emitAll_fast]
  congr
  apply Array.toList_inj.1
  rw [h, List.foldl_push_eq_append]
  simp

/-- The tracker operation runs on the frame and the fast stream. -/
theorem lift_run (x : FrameM α) (a : Assembly) :
    (liftM x : AsmM α) a = match x ⟨a.frame, a.buffer.fast⟩ with
      | .ok v s => .ok v ⟨s.frame, { a.buffer with fast := s.code }, a.slow⟩
      | .error e s => .error e ⟨s.frame, { a.buffer with fast := s.code }, a.slow⟩ := by
  obtain ⟨f, ⟨fast, slow, links⟩, paths⟩ := a
  change (liftM (m := FrameM) fun _ => x ⟨f, fast⟩ : AsmM α) ⟨f, ⟨fast, slow, links⟩, paths⟩ = _
  cases x ⟨f, fast⟩ <;> rfl

theorem lift_ok {x : FrameM α} {f : Frame} (h : x ⟨a.frame, a.buffer.fast⟩ = .ok v ⟨f, code⟩) :
    (liftM x : AsmM α) a = .ok v ⟨f, { a.buffer with fast := code }, a.slow⟩ := by
  rw [lift_run, h]

theorem liftM_bind (x : FrameM α) (k : α → FrameM β) :
    (liftM (x >>= k) : AsmM β) = liftM x >>= fun v => liftM (k v) := by
  funext a
  rw [lift_run, FrameM.bind_run, bind_run, lift_run]
  cases x ⟨a.frame, a.buffer.fast⟩ with
  | ok v s => exact (lift_run (k v) ⟨s.frame, { a.buffer with fast := s.code }, a.slow⟩).symm
  | error e s => rfl

/-- What an operation that loads delivers. -/
theorem delivers_lift {x : FrameM α} (hw : σ.waiting = false)
    (hx : σ.frame.Ready D σ.loans → FrameM.Delivers D x σ.frame σ.loans R) :
    Delivers J D (liftM x) σ fun v σ' => σ.Loads σ' ∧ R v σ'.frame σ'.loans := by
  intro a ha
  obtain ⟨v, ⟨f, code⟩, is, L, hrun, hcode, hblock, hready, hcont, hR⟩ :=
    hx ha.ready a.buffer.fast
  rw [← ha.books.frame] at hrun
  refine ⟨v, _, (σ.append .fast is.length (L.shape f)).reframe f L, lift_ok hrun, ?_,
    ⟨⟨hcont.argCount, hcont.localCount, List.Subset.refl _, List.Subset.refl _⟩, rfl⟩,
    ⟨by simp [append, reframe], by simp [append, reframe], rfl, rfl,
      rfl⟩, hR⟩
  -- the new frame may need more slots than the old one, so it comes first
  obtain ⟨Γ, hΓ⟩ := ha.typing
  rw [← emitAll_of_append hcode]
  have hb := (hblock.mono (Nat.le_refl _) ha.fast (.refl _))
  obtain ⟨Γ', hΓ'⟩ := (hΓ.mono (hcont.limit D)).emitAll hb
  have hlocal : ∀ i ∈ is, i.target? = none ∧ i.isCall = false := by
    intro i hi
    have hl := hblock.isLocal i hi
    exact ⟨Inst.target?_of_isLocal hl, by cases i <;> first | rfl | cases hl⟩
  refine ⟨hready, ?_, (ha.books.emitAll hlocal (L.shape f)).reframe hw L (hcont.limit D), Γ',
    hΓ'.congr (fun _ => rfl) rfl rfl rfl rfl⟩
  simp only [append, reframe, Function.update_self]
  exact .refl _

/-- What an operation that emits nothing delivers. -/
theorem delivers_settles {x : FrameM α} (hw : σ.waiting = false)
    (hx : FrameM.Settles D x σ.frame σ.loans (σ.shape .fast) R) :
    Delivers J D (liftM x) σ fun v σ' => σ.Reframes σ' ∧ R v σ'.frame σ'.loans := by
  intro a ha
  obtain ⟨v, f, L, hrun, hready, hP, hcont, hR⟩ := hx ha.ready ha.fast a.buffer.fast
  rw [← ha.books.frame] at hrun
  exact ⟨v, _, σ.reframe f L, lift_ok hrun, ha.reframe hw hready hP (hcont.limit D),
    ⟨⟨hcont.argCount, hcont.localCount, List.Subset.refl _, List.Subset.refl _⟩, rfl⟩,
    ⟨hcont.stackBase, rfl, rfl, rfl, rfl⟩, hR⟩

/-- Reading the tag of a slot changes nothing, so guards may wait meanwhile. -/
theorem tagOperand_delivers {s : Slot} {Q : Operand → Sketch → Prop}
    (ht : σ.frame.knownType s = .unknown) (hs : s < σ.frame.sp)
    (h : ∀ o : Operand, o.Reads (σ.frame.limit D) σ.frame.bound → Q o σ) :
    Delivers J D (liftM (FrameM.tagOperand s)) σ Q := by
  intro a ha
  have hsound := ha.ready.sound
  have hl := Frame.live_of_lt hs
  have hlb := ((ha.ready.tracks_model ha.ready.room).backing hl).1
  have htype : (σ.frame.backingEntry s).type = .unknown := ht
  cases htag : (σ.frame.backingEntry s).tag with
  | some r =>
    have hrun : FrameM.tagOperand s ⟨a.frame, a.buffer.fast⟩ =
        .ok (.reg r) ⟨a.frame, a.buffer.fast⟩ := by
      simp only [FrameM.tagOperand, FrameM.bind_run, FrameM.frame_run, ha.books.frame, htype,
        if_true, htag]
      rfl
    refine ⟨_, _, σ, lift_ok hrun, ha, .refl σ, h _ ?_⟩
    have hb := (hsound.tag_iff _ r).2 ⟨hlb, htag⟩
    simp [Operand.Reads, Frame.bound, hb, Binding.slot?]
  | none =>
    have hrun : FrameM.tagOperand s ⟨a.frame, a.buffer.fast⟩ =
        .ok (.tag (σ.frame.backing s)) ⟨a.frame, a.buffer.fast⟩ := by
      simp only [FrameM.tagOperand, FrameM.bind_run, FrameM.frame_run, ha.books.frame, htype,
        if_true, htag]
      rfl
    exact ⟨_, _, σ, lift_ok hrun, ha, .refl σ, h _ (Nat.lt_of_lt_of_le hlb.1 ha.ready.room)⟩

/-! ### Bringing memory up to date -/

/-- An operation that stores the frame and then has another one, which needs no more registers. -/
theorem delivers_sync {x : FrameM Unit} (f' : Frame) (L' : Loans) (hw : σ.waiting = false)
    (hx : σ.frame.Ready D σ.loans → ∀ code, x ⟨σ.frame, code⟩ =
      .ok () ⟨f', σ.frame.syncCode.foldl Array.push code⟩)
    (hready : σ.frame.Ready D σ.loans → f'.Ready D L')
    (hP : (σ.shape .fast).Covers (σ.loans.shape σ.frame) → (σ.shape .fast).Covers (L'.shape f'))
    (hcont : σ.frame.Continues f') :
    Delivers J D (liftM x) σ fun _ σ' => σ.Reframes σ' ∧ σ'.frame = f' ∧ σ'.loans = L' := by
  intro a ha
  have hbound := ha.fast.trans (σ.loans.shape_covers_bound σ.frame)
  have hcode := ha.emitAll (s := .fast) (ha.ready.block_syncCode hbound) fun _ => ha.fast
  refine ⟨(), _, (σ.append .fast σ.frame.syncCode.length (σ.shape .fast)).reframe f' L',
    lift_ok (by rw [ha.books.frame]; exact hx ha.ready a.buffer.fast), ?_,
    ⟨⟨hcont.argCount, hcont.localCount, List.Subset.refl _, List.Subset.refl _⟩, rfl⟩,
    ⟨hcont.stackBase, Function.update_eq_self _ _, rfl, rfl, rfl⟩, rfl, rfl⟩
  rw [← emitAll_fast]
  refine hcode.reframe hw (hready ha.ready) ?_ (hcont.limit D)
  simpa [append] using hP ha.fast

/-- Storing every slot. -/
theorem syncAll_delivers (hw : σ.waiting = false) :
    Delivers J D (liftM FrameM.syncAll) σ fun _ σ' => σ.Reframes σ' ∧
      σ'.frame = σ.frame.mapLive Entry.synced ∧ σ'.loans = σ.loans :=
  delivers_sync _ _ hw (fun _ _ => rfl) (·.synced) id ⟨rfl, rfl, Nat.le_refl _, rfl, rfl⟩

/-- Storing every slot and dropping every register. -/
theorem syncAndKill_delivers (hw : σ.waiting = false) (hL : σ.loans = Loans.none) :
    Delivers J D (liftM FrameM.syncAndKill) σ fun _ σ' => σ.Reframes σ' ∧
      σ'.frame = (σ.frame.mapLive Entry.synced).killed ∧ σ'.loans = Loans.none := by
  refine delivers_sync _ _ hw (fun hf code => ?_) (·.killed) (fun _ => Frame.covers_killed _ _)
    ⟨rfl, rfl, Nat.le_refl _, rfl, rfl⟩
  have htemps := (hL ▸ hf.lends).liveFault?_eq_none (f := σ.frame)
  simp only [FrameM.syncAndKill, FrameM.ensureNoTemps, FrameM.bind_run, FrameM.frame_run, htemps]
  rfl

/-- Storing every slot and forgetting what is known about the stack. -/
theorem syncAndForget_delivers (hw : σ.waiting = false) (hL : σ.loans = Loans.none) :
    Delivers J D (liftM FrameM.syncAndForget) σ fun _ σ' => σ.Reframes σ' ∧
      σ'.frame = (σ.frame.mapLive Entry.synced).reset σ.frame.depth ∧ σ'.loans = Loans.none := by
  refine delivers_sync _ _ hw (fun hf code => ?_) (fun hf => hf.synced.reset ?_)
    (fun _ => Frame.covers_reset _ _ _) ⟨rfl, rfl, Nat.le_refl _, rfl, rfl⟩
  · have htemps := (hL ▸ hf.lends).liveFault?_eq_none (f := σ.frame)
    simp only [FrameM.syncAndForget, FrameM.ensureNoTemps, FrameM.bind_run, FrameM.frame_run,
      htemps]
    rfl
  · have hroom := hf.room
    have hbase := hf.base
    change σ.frame.stackBase + (σ.frame.sp - σ.frame.stackBase) ≤ σ.frame.limit D
    lia

end AsmM

end FastPath
