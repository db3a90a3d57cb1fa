import FastPath.Proofs.Compile.Phases

/-!
# Branches within one operation

An operation may branch back and forth between its two streams before the frame changes again.
Which branches and labels it has is of interest only until every branch has its target, so
`Sketch.Routing` lists those that the rest of the operation still refers to: a branch with
registers that are sure to have contents there, a label with registers that are enough there.
A branch may be led to a label that needs no more than the branch has.
-/

namespace FastPath

open FrameM AsmM Sketch

theorem Shape.eq_all {P : Shape} (h : P.Covers Shape.all) : P = Shape.all := by
  obtain ⟨reg, freg⟩ := P
  have hreg : reg = fun _ => True := funext fun r => eq_true (h.reg r trivial)
  have hfreg : freg = fun _ => True := funext fun r => eq_true (h.freg r trivial)
  rw [hreg, hfreg]
  rfl

theorem FReg.scratch_valid : FReg.scratch.Valid := show 3 < FReg.count by decide

namespace AsmM

variable {α β : Type} {J : Nat → Prop} {D : Nat} {σ : Sketch}

variable {x : AsmM α} {Q : α → Sketch → Prop}

/-- One step after another. -/
theorem Delivers.bind {k : α → AsmM β} {R : β → Sketch → Prop} (h : Delivers J D x σ Q)
    (hk : ∀ v σ', Q v σ' → Delivers J D (k v) σ' R) : Delivers J D (x >>= k) σ R :=
  delivers_bind (h.mono hk)

/-- What comes after keeps what was there, and its frame can be compiled on. -/
theorem Delivers.typed (h : Delivers J D x σ Q) :
    Delivers J D x σ fun v σ' => Q v σ' ∧ σ.Precedes σ' ∧
      (σ'.shape .fast).Covers (σ'.loans.shape σ'.frame) := by
  intro a ha
  obtain ⟨v, a', σ', hx, ha', hg, hq⟩ := h a ha
  exact ⟨v, a', σ', hx, ha', hg, hq, hg.toPrecedes, ha'.fast⟩

end AsmM

namespace Sketch

open AsmM (Delivers)

/-- Code for one frame is being emitted into both streams. The ends of the streams have `P`
and `S`; the branches `ss` have at least, and the labels `ts` need at most, what is listed with
them; the branches `js` are open; `w` tells whether a guard waits and `p` whether a call is
incomplete. -/
structure Routing (f : Frame) (L : Loans) (P S : Shape) (ss : List (Jump × Shape))
    (ts : List (Label × Shape)) (js : List Jump) (w p : Bool) (σ : Sketch) : Prop where
  frame : σ.frame = f
  loans : σ.loans = L
  fast : (σ.shape .fast).Covers P
  lent : P.Covers (L.shape f)
  slow : (σ.shape .slow).Covers S
  site : ∀ j A, (j, A) ∈ ss → ∃ A', (j, A') ∈ σ.sites ∧ A'.Covers A
  target : ∀ l B, (l, B) ∈ ts → ∃ B', (l, B') ∈ σ.targets ∧ B.Covers B'
  opens : σ.opens.Perm js
  waiting : σ.waiting = w
  pending : σ.pending = p

variable {σ : Sketch} {f : Frame} {L : Loans} {P S : Shape} {ss : List (Jump × Shape)}
  {ts : List (Label × Shape)} {js js' : List Jump} {w p : Bool}

theorem Armed.routing (h : σ.Armed f L P js) (hP : P.Covers (L.shape f)) :
    σ.Routing f L P Shape.all [] [] js σ.waiting false :=
  ⟨h.frame, h.loans, h.fast, hP, h.slow ▸ .refl _, nofun, nofun, h.opens, rfl, h.pending⟩

namespace Routing

/-- Less need be known about branches and labels. -/
theorem mono {ss' : List (Jump × Shape)} {ts' : List (Label × Shape)}
    (h : σ.Routing f L P S ss ts js w p) (hss : ss' ⊆ ss) (hts : ts' ⊆ ts) :
    σ.Routing f L P S ss' ts' js w p :=
  ⟨h.frame, h.loans, h.fast, h.lent, h.slow, fun j A hj => h.site j A (hss hj),
    fun l B hl => h.target l B (hts hl), h.opens, h.waiting, h.pending⟩

/-- Nothing refers to the branches and labels any more. -/
theorem forget (h : σ.Routing f L P S ss ts js w p) : σ.Routing f L P S [] [] js w p :=
  h.mono (List.nil_subset _) (List.nil_subset _)

theorem perm (h : σ.Routing f L P S ss ts js w p) (hjs : js.Perm js') :
    σ.Routing f L P S ss ts js' w p :=
  ⟨h.frame, h.loans, h.fast, h.lent, h.slow, h.site, h.target, h.opens.trans hjs, h.waiting,
    h.pending⟩

theorem armed (h : σ.Routing f L P Shape.all ss ts js w false) : σ.Armed f L P js :=
  ⟨h.frame, h.loans, h.fast, Shape.eq_all h.slow, h.opens, h.pending⟩

theorem releasing (h : σ.Routing f L P Shape.all ss ts [] false false) :
    σ.Releasing false f.stackBase f.sp L P :=
  h.armed.releasing h.waiting

theorem clean (h : σ.Routing f Loans.none P Shape.all ss ts [] false false) : σ.Clean :=
  ⟨⟨⟨Shape.eq_all h.slow, h.opens.eq_nil, h.pending⟩, h.waiting⟩, h.loans⟩

variable {J : Nat → Prop} {D : Nat} {i : Inst} {g : Guard} {j : Jump} {l : Label} {A B : Shape}

section

variable (h : σ.Routing f L P S ss ts js w p)
include h

theorem bound : P.Covers f.bound :=
  h.lent.trans (L.shape_covers_bound f)

/-- An instruction of the fast stream. -/
theorem emit_fast (ht : i.target? = none) (hc : i.isCall = false) (hr : i.Reads (f.limit D) P) :
    Delivers J D (AsmM.emit .fast i) σ fun _ σ' => σ'.Routing f L (i.after P) S ss ts js w p := by
  refine AsmM.emit_delivers ht hc ?_ ⟨h.frame, h.loans, ?_,
    (Inst.after_covers_self hc P).trans h.lent, ?_, h.site, h.target, h.opens, h.waiting, h.pending⟩
  · rw [h.frame]
    exact hr.mono (Nat.le_refl _) h.fast
  · simpa [emit, append] using Inst.after_covers h.fast
  · simpa [emit, append] using h.slow

theorem emit_slow (ht : i.target? = none) (hc : i.isCall = false) (hr : i.Reads (f.limit D) S) :
    Delivers J D (AsmM.emit .slow i) σ fun _ σ' => σ'.Routing f L P (i.after S) ss ts js w p := by
  refine AsmM.emit_delivers ht hc ?_ ⟨h.frame, h.loans, ?_, h.lent, ?_, h.site, h.target, h.opens,
    h.waiting, h.pending⟩
  · rw [h.frame]
    exact hr.mono (Nat.le_refl _) h.slow
  · simpa [emit, append] using h.fast
  · simpa [emit, append] using Inst.after_covers h.slow

/-- A branch in the fast stream is open. -/
theorem branch_fast (hr : g.Reads (f.limit D) P) :
    Delivers J D (AsmM.branch .fast g) σ fun j σ' =>
      σ'.Routing f L (g.after P) S ((j, P) :: ss) ts (j :: js) w p := by
  refine AsmM.branch_delivers ?_ ⟨h.frame, h.loans, ?_,
    (Inst.after_covers_self (i := .branch g Inst.unlinked) rfl P).trans h.lent, ?_, ?_, h.target,
    h.opens.cons _, h.waiting, h.pending⟩
  · rw [h.frame]
    exact hr.mono (Nat.le_refl _) h.fast
  · simpa [branch, append] using Guard.after_covers h.fast
  · simpa [branch, append] using h.slow
  · rintro j A hj
    rcases List.mem_cons.1 hj with heq | hj
    · cases heq
      exact ⟨_, List.mem_cons_self, h.fast⟩
    · obtain ⟨A', hA, hc⟩ := h.site j A hj
      exact ⟨A', List.mem_cons_of_mem _ hA, hc⟩

/-- A branch in the slow stream is open. -/
theorem branch_slow (hr : g.Reads (f.limit D) S) :
    Delivers J D (AsmM.branch .slow g) σ fun j σ' =>
      σ'.Routing f L P (g.after S) ((j, S) :: ss) ts (j :: js) w p := by
  refine AsmM.branch_delivers ?_ ⟨h.frame, h.loans, ?_, h.lent, ?_, ?_, h.target,
    h.opens.cons _, h.waiting, h.pending⟩
  · rw [h.frame]
    exact hr.mono (Nat.le_refl _) h.slow
  · simpa [branch, append] using h.fast
  · simpa [branch, append] using Guard.after_covers h.slow
  · rintro j A hj
    rcases List.mem_cons.1 hj with heq | hj
    · cases heq
      exact ⟨_, List.mem_cons_self, h.slow⟩
    · obtain ⟨A', hA, hc⟩ := h.site j A hj
      exact ⟨A', List.mem_cons_of_mem _ hA, hc⟩

/-- A label that needs `B`; nothing else is known to have contents there. -/
theorem label_fast (B : Shape) (hP : P.Covers B) (hB : B.Covers (L.shape f)) :
    Delivers J D (AsmM.label .fast) σ fun l σ' =>
      σ'.Routing f L B S ss ((l, B) :: ts) js w p := by
  refine AsmM.delivers_weaken .fast (h.fast.trans hP) (fun _ => by rw [h.loans, h.frame]; exact hB)
    (AsmM.label_delivers ⟨h.frame, h.loans, ?_, hB, ?_, h.site, ?_, h.opens, h.waiting, h.pending⟩)
  · simpa [mark, weaken] using .refl _
  · simpa [mark, weaken] using h.slow
  · rintro l A hl
    rcases List.mem_cons.1 hl with heq | hl
    · cases heq
      exact ⟨B, by simp [mark, weaken, label], .refl _⟩
    · obtain ⟨B', hB', hc⟩ := h.target l A hl
      exact ⟨B', List.mem_cons_of_mem _ hB', hc⟩

/-- A label in the slow stream that needs `B`. -/
theorem label_slow (B : Shape) (hS : S.Covers B) :
    Delivers J D (AsmM.label .slow) σ fun l σ' =>
      σ'.Routing f L P B ss ((l, B) :: ts) js w p := by
  refine AsmM.delivers_weaken .slow (h.slow.trans hS) nofun
    (AsmM.label_delivers ⟨h.frame, h.loans, ?_, h.lent, ?_, h.site, ?_, h.opens, h.waiting,
      h.pending⟩)
  · simpa [mark, weaken] using h.fast
  · simpa [mark, weaken] using .refl _
  · rintro l A hl
    rcases List.mem_cons.1 hl with heq | hl
    · cases heq
      exact ⟨B, by simp [mark, weaken, label], .refl _⟩
    · obtain ⟨B', hB', hc⟩ := h.target l A hl
      exact ⟨B', List.mem_cons_of_mem _ hB', hc⟩

theorem mem_opens (ho : js.Perm (j :: js')) : j ∈ σ.opens :=
  (h.opens.trans ho).mem_iff.2 List.mem_cons_self

theorem erase_opens (ho : js.Perm (j :: js')) : (σ.opens.erase j).Perm js' := by
  simpa using (h.opens.trans ho).erase j

theorem link (ho : js.Perm (j :: js')) (hj : (j, A) ∈ ss) (hl : (l, B) ∈ ts) (hc : A.Covers B) :
    Delivers J D (link j l) σ fun _ σ' => σ'.Routing f L P S ss ts js' w p := by
  obtain ⟨A', hA, hcA⟩ := h.site j A hj
  obtain ⟨B', hB, hcB⟩ := h.target l B hl
  exact link_delivers (h.mem_opens ho) hA hB ((hcA.trans hc).trans hcB) ⟨h.frame, h.loans,
    h.fast, h.lent, h.slow, h.site, h.target, h.erase_opens ho, h.waiting, h.pending⟩

end

variable {n : Nat} {stub : Stub} {arg : Int64}

section

variable (h : σ.Routing f L P S ss ts js w p)
include h

theorem linkPc (ho : js.Perm (j :: js')) (hj : (j, A) ∈ ss) (hn : J n) :
    Delivers J D (linkPc j n) σ fun _ σ' => σ'.Routing f L P S ss ts js' w p := by
  obtain ⟨A', hA, -⟩ := h.site j A hj
  exact linkPc_delivers (h.mem_opens ho) hA hn ⟨h.frame, h.loans, h.fast, h.lent, h.slow,
    h.site, h.target, h.erase_opens ho, h.waiting, h.pending⟩

theorem linkExit (ho : js.Perm (j :: js')) (hj : (j, A) ∈ ss) (hA : A.Covers f.bound) :
    Delivers J D (linkExit j) σ fun _ σ' => σ'.Routing f L P S ss ts js' true p := by
  obtain ⟨A', hA', hc⟩ := h.site j A hj
  exact linkExit_delivers (h.mem_opens ho) hA' (h.frame ▸ hc.trans hA) ⟨h.frame, h.loans,
    h.fast, h.lent, h.slow, h.site, h.target, h.erase_opens ho, rfl, h.pending⟩

/-- All jumps that wait are led to one label. -/
theorem linkAll {ks : List Jump} (ho : js.Perm (ks ++ js'))
    (hks : ∀ k ∈ ks, ∃ A, (k, A) ∈ ss ∧ A.Covers B) (hl : (l, B) ∈ ts) :
    Delivers J D (linkAll ks l) σ fun _ σ' => σ'.Routing f L P S ss ts js' w p := by
  obtain ⟨B', hB, hcB⟩ := h.target l B hl
  refine linkAll_delivers (h.opens.trans ho) (fun k hk => ?_) hB ⟨h.frame, h.loans, h.fast,
    h.lent, h.slow, h.site, h.target, .refl _, h.waiting, h.pending⟩
  obtain ⟨A, hA, hc⟩ := hks k hk
  obtain ⟨A', hA', hc'⟩ := h.site k A hA
  exact ⟨A', hA', (hc'.trans hc).trans hcB⟩

theorem tagOperand {s : Slot} (hs : s < f.sp) (ht : f.knownType s = .unknown) :
    Delivers J D (liftM (tagOperand s)) σ fun o σ' =>
      σ'.Routing f L P S ss ts js w p ∧ o.Reads (f.limit D) f.bound := by
  obtain rfl := h.frame
  exact tagOperand_delivers ht hs fun o ho => ⟨h, ho⟩

/-- A stub call in the slow stream. -/
theorem call_slow :
    Delivers J D (AsmM.call stub arg) σ fun _ σ' =>
      σ'.Routing f L P Shape.result ss ts js w true := by
  refine AsmM.emitCall_delivers nofun ⟨h.frame, h.loans, ?_, h.lent, ?_, h.site, h.target, h.opens,
    h.waiting, rfl⟩
  · simpa [call, append] using h.fast
  · simpa [call, append] using .refl _

/-- A stub call in the fast stream, where no register has to be kept. -/
theorem call_fast (hL : Shape.result.Covers (L.shape f)) :
    Delivers J D (callInline stub arg) σ fun _ σ' =>
      σ'.Routing f L Shape.result S ss ts js w true := by
  refine emitCall_delivers (fun _ => by rw [h.loans, h.frame]; exact hL) ⟨h.frame, h.loans, ?_,
    hL, ?_, h.site, h.target, h.opens, h.waiting, rfl⟩
  · simpa [call, append] using .refl _
  · simpa [call, append] using h.slow

end

/-- Leading the waiting guards to a stub call. -/
theorem slowCall (h : σ.Routing f L P Shape.all ss ts js w p) :
    Delivers J D (slowCall stub arg) σ fun _ σ' =>
      σ'.Routing f L P Shape.result ss ts js false true := by
  refine slowCall_delivers (h.slow.trans (Shape.all_covers _)) fun n => ⟨h.frame, h.loans, ?_,
    h.lent, ?_, h.site, fun l B hl => ?_, h.opens, rfl, rfl⟩
  · simpa [call, append, leave] using h.fast
  · simpa [call, append] using .refl _
  · obtain ⟨B', hB, hc⟩ := h.target l B hl
    exact ⟨B', List.mem_cons_of_mem _ hB, hc⟩

/-- The calls of the operation are complete. -/
theorem complete {changes : Nat} {rejoin : Option Label} (h : σ.Routing f L P S ss ts js w p)
    (hn : n ≤ f.limit D) :
    Delivers J D (updateSlow (·.complete n changes rejoin)) σ fun _ σ' =>
      σ'.Routing f L P S ss ts js w false :=
  complete_delivers (by rw [h.frame]; exact hn) ⟨h.frame, h.loans, h.fast, h.lent, h.slow,
    h.site, h.target, h.opens, h.waiting, rfl⟩

/-- A branch to another bytecode instruction. -/
theorem jump_fast (h : σ.Routing f L P S ss ts js w p) (hr : g.Reads (f.limit D) P) (hn : J n) :
    Delivers J D (AsmM.branch .fast g >>= fun j => AsmM.linkPc j n) σ fun _ σ' =>
      σ'.Routing f L (g.after P) S ss ts js w p := by
  refine (h.branch_fast hr).bind fun j σ₁ h₁ => (h₁.linkPc (.refl _) (.head _) hn).mono
    fun _ σ₂ h₂ => ?_
  exact h₂.mono (List.subset_cons_self _ _) (List.Subset.refl _)

/-- A branch to another bytecode instruction from the slow stream. -/
theorem jump_slow (h : σ.Routing f L P S ss ts js w p) (hr : g.Reads (f.limit D) S) (hn : J n) :
    Delivers J D (AsmM.branch .slow g >>= fun j => AsmM.linkPc j n) σ fun _ σ' =>
      σ'.Routing f L P (g.after S) ss ts js w p := by
  refine (h.branch_slow hr).bind fun j σ₁ h₁ => (h₁.linkPc (.refl _) (.head _) hn).mono
    fun _ σ₂ h₂ => ?_
  exact h₂.mono (List.subset_cons_self _ _) (List.Subset.refl _)

/-! ### Other frames -/

section Reframe

variable {α : Type} {R : α → Frame → Loans → Prop}

/-- A step that changes the frame, while no guard waits, and takes no register its contents. -/
theorem reframes {x : AsmM α} (h : σ.Routing f L P S ss ts js false p)
    (hx : ∀ σ₁ : Sketch, σ₁.frame = f → σ₁.loans = L → σ₁.waiting = false → σ₁.shape .fast = P →
      Delivers J D x σ₁ fun v σ' => σ₁.Reframes σ' ∧ R v σ'.frame σ'.loans) :
    Delivers J D x σ fun v σ' => ∃ f' L', σ'.Routing f' L' P S ss ts js false p ∧ R v f' L' := by
  refine delivers_weaken .fast h.fast (fun _ => by rw [h.loans, h.frame]; exact h.lent) ?_
  have hshape : (σ.weaken .fast P).shape .fast = P := by simp [weaken]
  refine (hx (σ.weaken .fast P) h.frame h.loans h.waiting hshape).typed.mono ?_
  rintro v σ' ⟨⟨hr, hR⟩, hp, hlent⟩
  have hfast : σ'.shape .fast = P := by rw [hr.shape, hshape]
  refine ⟨σ'.frame, σ'.loans, ⟨rfl, rfl, hfast ▸ .refl _, hfast ▸ hlent, ?_, fun j A hj => ?_,
    fun l B hl => ?_, hr.opens ▸ h.opens, hr.waiting.trans h.waiting,
      hr.pending.trans h.pending⟩, hR⟩
  · rw [hr.shape]
    simpa [weaken] using h.slow
  · obtain ⟨A', hA, hc⟩ := h.site j A hj
    exact ⟨A', hp.sites hA, hc⟩
  · obtain ⟨B', hB, hc⟩ := h.target l B hl
    exact ⟨B', hp.targets hB, hc⟩

theorem settles {x : FrameM α} (h : σ.Routing f L P S ss ts js false p)
    (hx : Settles D x f L P R) :
    Delivers J D (liftM x) σ fun v σ' => ∃ f' L', σ'.Routing f' L' P S ss ts js false p ∧
      R v f' L' :=
  h.reframes fun σ₁ hf hL hw hP => delivers_settles hw (by rw [hf, hL, hP]; exact hx)

theorem update {k : Frame → Frame} {R : Unit → Frame → Loans → Prop}
    (h : σ.Routing f L P S ss ts js false p) (hx : Settles D (update k) f L P R) :
    Delivers J D (updateFrame k) σ fun v σ' =>
      ∃ f' L', σ'.Routing f' L' P S ss ts js false p ∧ R v f' L' :=
  h.settles hx

theorem syncAll (h : σ.Routing f L P S ss ts js false p) :
    Delivers J D (liftM syncAll) σ fun _ σ' =>
      σ'.Routing (f.mapLive Entry.synced) L P S ss ts js false p := by
  refine (h.reframes (R := fun _ f' L' => f' = f.mapLive Entry.synced ∧ L' = L)
    fun σ₁ hf hL hw _ => hf ▸ hL ▸ syncAll_delivers hw).mono ?_
  rintro - σ' ⟨_, _, h', rfl, rfl⟩
  exact h'

theorem syncAndKill (h : σ.Routing f Loans.none P S ss ts js false p) :
    Delivers J D (liftM syncAndKill) σ fun _ σ' =>
      σ'.Routing (f.mapLive Entry.synced).killed Loans.none P S ss ts js false p := by
  refine (h.reframes (R := fun _ f' L' => f' = (f.mapLive Entry.synced).killed ∧ L' = Loans.none)
    fun σ₁ hf hL hw _ => hf ▸ syncAndKill_delivers hw hL).mono ?_
  rintro - σ' ⟨_, _, h', rfl, rfl⟩
  exact h'

theorem syncAndForget (h : σ.Routing f Loans.none P S ss ts js false p) :
    Delivers J D (liftM syncAndForget) σ fun _ σ' =>
      σ'.Routing ((f.mapLive Entry.synced).reset f.depth) Loans.none P S ss ts js false p := by
  refine (h.reframes (R := fun _ f' L' => f' = (f.mapLive Entry.synced).reset f.depth ∧
    L' = Loans.none) fun σ₁ hf hL hw _ => hf ▸ syncAndForget_delivers hw hL).mono ?_
  rintro - σ' ⟨_, _, h', rfl, rfl⟩
  exact h'

end Reframe

/-- A branch of the slow stream goes on in the fast stream, where the frame has no registers. -/
theorem linkRejoin {d : Nat} (h : σ.Routing (f.reset d) Loans.none P S ss ts js w p)
    (ho : js.Perm (j :: js')) (hj : (j, A) ∈ ss) :
    Delivers J D (AsmM.linkRejoin j) σ fun _ σ' =>
      σ'.Routing (f.reset d) Loans.none (Loans.none.shape (f.reset d)) S ss [] js' w p := by
  refine (h.label_fast _ h.lent (.refl _)).bind fun l σ₁ h₁ => ?_
  exact (h₁.link ho hj (.head _) (Frame.covers_reset _ _ _)).mono fun _ σ₂ h₂ =>
    h₂.mono (List.Subset.refl _) (List.nil_subset _)

end Routing

end Sketch

namespace CompileM

variable {α β : Type} {c : Context} {σ : Sketch} {f : Frame} {L : Loans} {P S : Shape}
  {ss : List (Jump × Shape)} {ts : List (Label × Shape)} {js : List Jump} {w p : Bool}

/-- What has been borrowed has contents. -/
theorem delivers_routed {x : CompileM α} {Q : α → Sketch → Prop} (h : σ.Lent f L)
    (hx : σ.Routing σ.frame L (L.shape σ.frame) Shape.all [] [] [] false false →
      Delivers c x σ Q) : Delivers c x σ Q :=
  delivers_armed h fun _ ha => hx (h.waiting ▸ ha.routing (.refl _))

variable {g : Guard}

/-- A branch to another bytecode instruction. -/
theorem jump_delivers {n : Nat} (h : σ.Routing f L P S ss ts js w p)
    (hr : g.Reads (f.limit c.slots) P) (hn : c.Jumps n) :
    Delivers c (liftM (AsmM.branch .fast g) >>= fun j => liftM (AsmM.linkPc j n)) σ fun _ σ' =>
      σ'.Routing f L (g.after P) S ss ts js w p := by
  rw [← liftM_bind]
  exact delivers_asm (h.jump_fast hr hn)

/-- A branch to another bytecode instruction from the slow stream. -/
theorem jump_slow_delivers {n : Nat} (h : σ.Routing f L P S ss ts js w p)
    (hr : g.Reads (f.limit c.slots) S) (hn : c.Jumps n) :
    Delivers c (liftM (AsmM.branch .slow g) >>= fun j => liftM (AsmM.linkPc j n)) σ fun _ σ' =>
      σ'.Routing f L P (g.after S) ss ts js w p := by
  rw [← liftM_bind]
  exact delivers_asm (h.jump_slow hr hn)

end CompileM

end FastPath
