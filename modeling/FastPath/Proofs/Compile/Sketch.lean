import FastPath.Proofs.Compile.Draft
import FastPath.Proofs.Frame.Settling

/-!
# Registers that have contents in code that is being emitted

Every position in the code gets a shape: the registers that have contents whenever control
is there. An instruction reads only registers of its shape and leaves at least the shape of
the next position; a branch leads only to positions whose shape its own covers.

While code is being emitted most of this assignment is settled and of no further interest. A
`Sketch` keeps what the next step depends on: the frame and the loans, the shapes at the ends
of the two streams, the branches that have no target yet, and for some positions a bound on
their shape, from below for branches and from above for labels. `Assembly.Typed` says that
an assignment exists that agrees with the sketch, and that the bookkeeping is in order.
-/

namespace FastPath

open CodeBuffer

namespace CodeBuffer

/-- A branch is at the label. -/
def IsBranch (b : CodeBuffer) (l : Label) : Prop := ∃ g t, b.inst? l = some (.branch g t)

variable {b : CodeBuffer} {l : Label} {s : Stream} {i : Inst}

theorem lt_of_inst? (h : b.inst? l = some i) : l.offset < (b.stream l.stream).size :=
  (Array.getElem?_eq_some_iff.1 h).1

theorem IsBranch.lt (h : b.IsBranch l) : l.offset < (b.stream l.stream).size := by
  obtain ⟨g, t, h⟩ := h
  exact lt_of_inst? h

theorem size_emit (b : CodeBuffer) (s s' : Stream) (i : Inst) :
    ((b.emit s i).stream s').size =
      if s' = s then (b.stream s).size + 1 else (b.stream s').size := by
  cases s <;> cases s' <;> simp [emit, stream]

theorem inst?_emit (b : CodeBuffer) (s : Stream) (i : Inst) (l : Label) :
    (b.emit s i).inst? l = if l = b.label s then some i else b.inst? l := by
  obtain ⟨s', o⟩ := l
  cases s <;> cases s' <;> simp [inst?, emit, stream, label, Array.getElem?_push]

theorem IsBranch.emit (h : b.IsBranch l) (s : Stream) (i : Inst) : (b.emit s i).IsBranch l := by
  obtain ⟨g, t, hl⟩ := h
  refine ⟨g, t, ?_⟩
  rw [inst?_emit, if_neg]
  · exact hl
  · rintro rfl
    exact absurd (lt_of_inst? hl) (Nat.lt_irrefl _)

theorem IsBranch.of_emit (h : (b.emit s i).IsBranch l) (hi : i.target? = none) : b.IsBranch l := by
  obtain ⟨g, t, hl⟩ := h
  rw [inst?_emit] at hl
  split at hl
  · cases hl
    cases hi
  · exact ⟨g, t, hl⟩

end CodeBuffer

/-! ### Sketches -/

/-- What the next step of a compilation depends on. -/
structure Sketch where
  frame : Frame
  loans : Loans
  /-- The registers that have contents at the end of each stream. -/
  shape : Stream → Shape
  size : Stream → Nat
  /-- Branches that have no target yet. -/
  opens : List Jump
  /-- Some guard waits for a slow path. -/
  waiting : Bool
  /-- Some call of the current operation is not complete. -/
  pending : Bool
  /-- Registers that are sure to have contents at some branches. -/
  sites : List (Jump × Shape)
  /-- Registers that are enough at some labels. -/
  targets : List (Label × Shape)
  caches : List (CacheLayout Label)

namespace Sketch

/-- The end of a stream. -/
def label (σ : Sketch) (s : Stream) : Label := ⟨s, σ.size s⟩

/-- Another shape at the end of a stream. -/
def weaken (σ : Sketch) (s : Stream) (P : Shape) : Sketch :=
  { σ with shape := Function.update σ.shape s P }

/-- After some instructions, which leave the given shape. -/
def append (σ : Sketch) (s : Stream) (n : Nat) (P : Shape) : Sketch :=
  { σ with
    shape := Function.update σ.shape s P
    size := Function.update σ.size s (σ.size s + n) }

/-- After an instruction. -/
def emit (σ : Sketch) (s : Stream) (i : Inst) : Sketch := σ.append s 1 (i.after (σ.shape s))

/-- The end of a stream has become a label. -/
def mark (σ : Sketch) (s : Stream) : Sketch :=
  { σ with targets := (σ.label s, σ.shape s) :: σ.targets }

/-- After a branch. -/
def branch (σ : Sketch) (s : Stream) (g : Guard) : Sketch :=
  { σ.append s 1 (g.after (σ.shape s)) with
    opens := σ.label s :: σ.opens
    sites := (σ.label s, σ.shape s) :: σ.sites }

/-- A branch has been given its target. -/
def close (σ : Sketch) (j : Jump) : Sketch := { σ with opens := σ.opens.erase j }

/-- A branch waits for the slow path. -/
def await (σ : Sketch) (j : Jump) : Sketch :=
  { σ with opens := σ.opens.erase j, waiting := true }

/-- The waiting guards have been led to code that stores the frame. -/
def leave (σ : Sketch) (n : Nat) : Sketch :=
  { σ with
    shape := Function.update σ.shape .slow σ.frame.bound
    size := Function.update σ.size .slow (σ.size .slow + n)
    waiting := false
    targets := (σ.label .slow, σ.frame.bound) :: σ.targets }

/-- After a stub call. -/
def call (σ : Sketch) (s : Stream) : Sketch := { σ.append s 1 .result with pending := true }

/-- Another frame. -/
def reframe (σ : Sketch) (f : Frame) (L : Loans) : Sketch := { σ with frame := f, loans := L }

/-! ### Shapes for all positions -/

/-- The positions of the code can be given shapes that agree with the sketch. -/
structure Typing (σ : Sketch) (b : CodeBuffer) (n : Nat) (Γ : Label → Shape) : Prop where
  size : ∀ s, (b.stream s).size = σ.size s
  ends : ∀ s, Γ (σ.label s) = σ.shape s
  inst : ∀ l i, b.inst? l = some i → i.Reads n (Γ l) ∧ (i.after (Γ l)).Covers (Γ l.next)
  site : ∀ l S, (l, S) ∈ σ.sites → b.IsBranch l ∧ (Γ l).Covers S
  target : ∀ l S, (l, S) ∈ σ.targets → l.offset ≤ σ.size l.stream ∧ S.Covers (Γ l)

namespace Typing

variable {σ : Sketch} {b : CodeBuffer} {n : Nat} {Γ : Label → Shape} {s : Stream} {i : Inst}
  {P : Shape}

theorem label_eq (h : σ.Typing b n Γ) (s : Stream) : b.label s = σ.label s := by
  rw [CodeBuffer.label, h.size, label]

variable {l : Label}

theorem ne_label (h : l.offset < σ.size l.stream) : l ≠ σ.label s := by
  rintro rfl
  exact absurd h (Nat.lt_irrefl _)

variable (h : σ.Typing b n Γ)
include h

theorem lt (hi : b.inst? l = some i) : l.offset < σ.size l.stream :=
  h.size _ ▸ lt_of_inst? hi

/-- Only the code, the shapes and the bounds on them matter. -/
theorem congr {σ' : Sketch} {b' : CodeBuffer} (hb : ∀ s, b'.stream s = b.stream s)
    (hshape : σ'.shape = σ.shape) (hsize : σ'.size = σ.size) (hsites : σ'.sites = σ.sites)
    (htargets : σ'.targets = σ.targets) : σ'.Typing b' n Γ := by
  have hinst : ∀ l, b'.inst? l = b.inst? l := fun l => by
    rw [inst?, hb, inst?]
  refine ⟨fun s => ?_, fun s => ?_, fun l i hi => h.inst l i (hinst l ▸ hi), fun l S hS => ?_,
    fun l S hS => ?_⟩
  · rw [hb, hsize, h.size]
  · rw [label, hsize, hshape]
    exact h.ends s
  · obtain ⟨⟨g, t, hl⟩, hc⟩ := h.site l S (hsites ▸ hS)
    exact ⟨⟨g, t, hinst l ▸ hl⟩, hc⟩
  · rw [hsize]
    exact h.target l S (htargets ▸ hS)

theorem mono {n' : Nat} (hn : n ≤ n') : σ.Typing b n' Γ where
  __ := h
  inst l i hi := ⟨(h.inst l i hi).1.mono hn (.refl _), (h.inst l i hi).2⟩

/-- Fewer registers may be assumed at the end of a stream. -/
theorem weaken (hP : (σ.shape s).Covers P) :
    (σ.weaken s P).Typing b n (Function.update Γ (σ.label s) P) where
  size := h.size
  ends s' := by
    simp only [Sketch.weaken, Function.update_apply, label, Label.mk.injEq]
    by_cases hs : s' = s
    · subst hs
      simp
    · simp only [hs, false_and, if_false]
      exact h.ends s'
  inst l i hi := by
    obtain ⟨hr, hc⟩ := h.inst l i hi
    rw [Function.update_of_ne (ne_label (h.lt hi))]
    refine ⟨hr, ?_⟩
    rw [Function.update_apply]
    split
    · next hl => exact hc.trans (hl ▸ h.ends s ▸ hP)
    · exact hc
  site l S hl := by
    obtain ⟨hb, hc⟩ := h.site l S hl
    rw [Function.update_of_ne (ne_label (h.size _ ▸ hb.lt))]
    exact ⟨hb, hc⟩
  target l S hl := by
    obtain ⟨hle, hc⟩ := h.target l S hl
    refine ⟨hle, ?_⟩
    rw [Function.update_apply]
    split
    · next heq => exact hc.trans (heq ▸ h.ends s ▸ hP)
    · exact hc

/-- Appending an instruction. -/
theorem emit (hr : i.Reads n (σ.shape s)) :
    (σ.emit s i).Typing (b.emit s i) n
      (Function.update Γ (σ.label s).next (i.after (σ.shape s))) := by
  have hne : ∀ l : Label, l.offset ≤ σ.size l.stream → l ≠ (σ.label s).next := by
    rintro l hl rfl
    exact absurd hl (Nat.not_succ_le_self _)
  refine ⟨fun s' => ?_, fun s' => ?_, fun l j hj => ?_, fun l S hl => ?_, fun l S hl => ?_⟩
  · rw [size_emit]
    simp only [Sketch.emit, append, Function.update_apply, h.size]
  · simp only [Sketch.emit, append, Function.update_apply, label, Label.next, Label.mk.injEq]
    by_cases hs : s' = s
    · subst hs
      simp
    · simp only [hs, false_and, if_false]
      exact h.ends s'
  · rw [inst?_emit, h.label_eq] at hj
    split at hj
    · next heq =>
      cases hj
      subst heq
      rw [Function.update_of_ne (hne _ (Nat.le_refl _)), Function.update_self, h.ends]
      exact ⟨hr, .refl _⟩
    · have hlt := h.lt hj
      rw [Function.update_of_ne (hne _ (Nat.le_of_lt hlt)), Function.update_of_ne (hne l.next hlt)]
      exact h.inst l j hj
  · obtain ⟨hb, hc⟩ := h.site l S hl
    rw [Function.update_of_ne (hne _ (h.size _ ▸ Nat.le_of_lt hb.lt))]
    exact ⟨hb.emit s i, hc⟩
  · obtain ⟨hle, hc⟩ := h.target l S hl
    rw [Function.update_of_ne (hne _ hle)]
    refine ⟨Nat.le_trans hle ?_, hc⟩
    simp only [Sketch.emit, append, Function.update_apply]
    split
    · next heq => exact heq ▸ Nat.le_succ _
    · exact Nat.le_refl _

/-- Several instructions at once. -/
theorem emitAll {is : List Inst} (hb : Block n is (σ.shape s) P) :
    ∃ Γ', (σ.append s is.length P).Typing (b.emitAll s is) n Γ' := by
  induction is generalizing σ b Γ with
  | nil =>
    cases hb with
    | nil hc =>
      refine ⟨Function.update Γ (σ.label s) P, ?_⟩
      have hw := h.weaken hc
      simpa [append, Sketch.weaken, emitAll] using hw
  | cons i is ih =>
    cases hb with
    | cons _ hr hb =>
      have he := h.emit hr
      obtain ⟨Γ', ht⟩ := ih he (by simpa [Sketch.emit, append] using hb)
      refine ⟨Γ', ?_⟩
      have heq : (σ.emit s i).append s is.length P = σ.append s (i :: is).length P := by
        simp only [Sketch.emit, append, Function.update_idem, Function.update_self,
          List.length_cons]
        rw [Nat.add_assoc, Nat.add_comm 1]
      rw [← heq]
      exact ht

/-- The end of a stream becomes a label. -/
theorem mark (s : Stream) : (σ.mark s).Typing b n Γ where
  __ := h
  target l S hl := by
    rcases List.mem_cons.1 hl with heq | hl
    · cases heq
      exact ⟨Nat.le_refl _, h.ends s ▸ .refl _⟩
    · exact h.target l S hl

/-- Appending a branch. -/
theorem branch {g : Guard} (hr : g.Reads n (σ.shape s)) :
    (σ.branch s g).Typing (b.emit s (.branch g Inst.unlinked)) n
      (Function.update Γ (σ.label s).next (g.after (σ.shape s))) := by
  have he := h.emit (s := s) (i := .branch g Inst.unlinked) hr
  refine ⟨he.size, he.ends, he.inst, fun l S hl => ?_, he.target⟩
  rcases List.mem_cons.1 hl with heq | hl
  · cases heq
    refine ⟨⟨g, Inst.unlinked, ?_⟩, ?_⟩
    · rw [inst?_emit, h.label_eq, if_pos rfl]
    · have hne : σ.label s ≠ (σ.label s).next := by
        simp [Label.next, label]
      rw [Function.update_of_ne hne, h.ends]
      exact .refl _
  · exact he.site l S hl

end Typing

/-! ### Bookkeeping -/

/-- The branch has the registers that the target of the link needs. Bytecode instructions that
are jumped to need none. -/
def Leads (σ : Sketch) (J : Nat → Prop) (k : Link) : Prop :=
  ∃ S, (k.jump, S) ∈ σ.sites ∧ match k.target with
    | .label l => ∃ T, (l, T) ∈ σ.targets ∧ S.Covers T
    | .pc n => J n

/-- The cache can be skipped at its start and consulted at its class guard. -/
structure Serves (σ : Sketch) (c : CacheLayout Label) : Prop where
  start : ∃ S T, (c.start, S) ∈ σ.sites ∧ (c.slowStart, T) ∈ σ.targets ∧ S.Covers T
  guard : ∃ S T, (c.classGuard, S) ∈ σ.sites ∧ (c.rejoin, T) ∈ σ.targets ∧ S.reg c.obj ∧
    c.key.Reads S ∧ c.Hits S T

/-- The bookkeeping agrees with the sketch. Every branch has a target, waits for one, or waits
for the slow path, and there are no more of these than branches; every call is recorded; and
only calls of the current operation are not complete. -/
structure Books (σ : Sketch) (J : Nat → Prop) (D : Nat) (a : Assembly) : Prop where
  frame : a.frame = σ.frame
  link : ∀ k ∈ a.buffer.links, σ.Leads J k
  branch : ∀ l, a.buffer.IsBranch l →
    (∃ k ∈ a.buffer.links, k.jump = l) ∨ l ∈ σ.opens ∨ l ∈ a.slow.exits
  tally : a.buffer.links.size + a.slow.exits.size + σ.opens.length ≤ a.buffer.branchCount
  exit : ∀ l ∈ a.slow.exits, ∃ S, (l, S) ∈ σ.sites ∧ S.Covers σ.frame.bound
  waiting : a.slow.hasExits = σ.waiting
  generation : a.slow.exitGeneration = if σ.waiting then some σ.frame.generation else none
  call : ∀ l i, a.buffer.inst? l = some i → i.isCall → ∃ c ∈ a.slow.calls, c.call = l
  cache : ∀ l n sp m, a.buffer.inst? l = some (.callCache n sp m) →
    ∃ c, σ.caches[n]? = some c ∧ (MachineM.cacheStub c.kind).uses ≤ sp ∧ sp ≤ σ.frame.limit D
  sp : ∀ c ∈ a.slow.calls, c.sp ≤ σ.frame.limit D ∧ ∀ n, c.spAfter = some n → n ≤ σ.frame.limit D
  opStart : a.slow.opStart ≤ a.slow.calls.size
  complete : ∀ i c, a.slow.calls[i]? = some c → i < a.slow.opStart ∨ σ.pending = false →
    c.spAfter.isSome
  serves : ∀ c ∈ σ.caches, σ.Serves c

section Mono

variable {σ : Sketch} {J : Nat → Prop}

theorem Leads.mono {k : Link} (h : σ.Leads J k) (σ' : Sketch) (hsites : σ.sites ⊆ σ'.sites)
    (htargets : σ.targets ⊆ σ'.targets) : σ'.Leads J k := by
  obtain ⟨S, hS, ht⟩ := h
  refine ⟨S, hsites hS, ?_⟩
  split
  · next l hl =>
    rw [hl] at ht
    obtain ⟨T, hT, hc⟩ := ht
    exact ⟨T, htargets hT, hc⟩
  · next n hn =>
    rw [hn] at ht
    exact ht

theorem Serves.mono {c : CacheLayout Label} (h : σ.Serves c) (σ' : Sketch)
    (hsites : σ.sites ⊆ σ'.sites) (htargets : σ.targets ⊆ σ'.targets) : σ'.Serves c := by
  obtain ⟨⟨S, T, hS, hT, hc⟩, ⟨S', T', hS', hT', hr⟩⟩ := h
  exact ⟨⟨S, T, hsites hS, htargets hT, hc⟩, ⟨S', T', hsites hS', htargets hT', hr⟩⟩

end Mono

namespace Books

variable {σ : Sketch} {J : Nat → Prop} {D : Nat} {a : Assembly} {s : Stream} {i : Inst}

theorem hasExits_eq_false (h : σ.Books J D a) (hw : σ.waiting = false) : a.slow.exits = #[] := by
  have := h.waiting
  rw [hw] at this
  simpa [SlowPath.hasExits] using this

theorem links_emit (b : CodeBuffer) (s : Stream) (i : Inst) : (b.emit s i).links = b.links := by
  cases s <;> rfl

theorem branchCount_emit (b : CodeBuffer) (s : Stream) (i : Inst) :
    (b.emit s i).branchCount = b.branchCount + if i.target?.isSome then 1 else 0 := by
  cases s <;> simp only [CodeBuffer.emit, CodeBuffer.branchCount, Array.toList_push,
    List.countP_append, List.countP_singleton] <;> omega

theorem branchCount_le_emit (b : CodeBuffer) (s : Stream) (i : Inst) :
    b.branchCount ≤ (b.emit s i).branchCount := by
  rw [branchCount_emit]
  exact Nat.le_add_right _ _

/-- Appending an instruction that is no branch and no call. -/
theorem emit (h : σ.Books J D a) (ht : i.target? = none) (hcall : i.isCall = false) (P : Shape) :
    (σ.append s 1 P).Books J D { a with buffer := a.buffer.emit s i } where
  __ := h
  link k hk := h.link k (links_emit a.buffer s i ▸ hk)
  branch l hl := by
    rw [links_emit]
    exact h.branch l (hl.of_emit ht)
  tally := by
    rw [links_emit]
    exact Nat.le_trans h.tally (branchCount_le_emit a.buffer s i)
  call l j hj hc := by
    rw [inst?_emit] at hj
    split at hj
    · cases hj
      rw [hcall] at hc
      cases hc
    · exact h.call l j hj hc
  cache l n sp m hj := by
    rw [inst?_emit] at hj
    split at hj
    · cases hj
      cases hcall
    · exact h.cache l n sp m hj
  serves c hc := ⟨(h.serves c hc).start, (h.serves c hc).guard⟩

/-- Several instructions at once. -/
theorem emitAll (h : σ.Books J D a) {is : List Inst}
    (his : ∀ i ∈ is, i.target? = none ∧ i.isCall = false) (P : Shape) :
    (σ.append s is.length P).Books J D { a with buffer := a.buffer.emitAll s is } := by
  induction is generalizing σ a with
  | nil =>
    exact ⟨h.frame, h.link, h.branch, h.tally, h.exit, h.waiting, h.generation, h.call, h.cache,
    h.sp, h.opStart, h.complete, fun c hc => ⟨(h.serves c hc).start, (h.serves c hc).guard⟩⟩
  | cons i is ih =>
    have hi := his i List.mem_cons_self
    have he := ih (h.emit (s := s) hi.1 hi.2 P) fun j hj => his j (List.mem_cons_of_mem _ hj)
    have heq : (σ.append s 1 P).append s is.length P = σ.append s (i :: is).length P := by
      simp only [append, Function.update_idem, Function.update_self, List.length_cons]
      rw [Nat.add_assoc, Nat.add_comm 1]
    rw [← heq]
    exact he

/-- Appending a branch. -/
theorem emitBranch (h : σ.Books J D a) (hlabel : a.buffer.label s = σ.label s) (g : Guard) :
    (σ.branch s g).Books J D { a with buffer := a.buffer.emit s (.branch g Inst.unlinked) } where
  __ := h
  link k hk := (h.link k (links_emit a.buffer s _ ▸ hk)).mono _ (List.subset_cons_self _ _)
    (List.Subset.refl _)
  branch l hl := by
    rw [links_emit]
    obtain ⟨g', t, hi⟩ := hl
    rw [inst?_emit, hlabel] at hi
    split at hi
    · next heq => exact .inr (.inl (heq ▸ List.mem_cons_self))
    · rcases h.branch l ⟨g', t, hi⟩ with hk | ho | he
      · exact .inl hk
      · exact .inr (.inl (List.mem_cons_of_mem _ ho))
      · exact .inr (.inr he)
  tally := by
    rw [links_emit, branchCount_emit]
    exact Nat.succ_le_succ h.tally
  exit l hl := by
    obtain ⟨S, hS, hc⟩ := h.exit l hl
    exact ⟨S, List.mem_cons_of_mem _ hS, hc⟩
  call l j hj hc := by
    rw [inst?_emit] at hj
    split at hj
    · cases hj
      cases hc
    · exact h.call l j hj hc
  cache l n sp m hj := by
    rw [inst?_emit] at hj
    split at hj
    · cases hj
    · exact h.cache l n sp m hj
  serves c hc := (h.serves c hc).mono _ (List.subset_cons_self _ _) (List.Subset.refl _)

/-- Giving a branch its target. -/
theorem linkTo (h : σ.Books J D a) {j : Jump} {t : LinkTarget} (hopen : j ∈ σ.opens)
    (hl : σ.Leads J ⟨j, t⟩) :
    (σ.close j).Books J D { a with buffer := a.buffer.link j t } where
  __ := h
  link k hk := by
    rcases Array.mem_push.1 hk with hk | rfl
    · exact h.link k hk
    · exact hl
  branch l hb := by
    rcases h.branch l hb with ⟨k, hk, hkl⟩ | ho | he
    · exact .inl ⟨k, Array.mem_push.2 (.inl hk), hkl⟩
    · by_cases heq : l = j
      · exact .inl ⟨⟨j, t⟩, Array.mem_push.2 (.inr rfl), heq.symm⟩
      · exact .inr (.inl ((List.mem_erase_of_ne heq).2 ho))
    · exact .inr (.inr he)
  tally := by
    have htally := h.tally
    have hlen := List.length_erase_add_one hopen
    simp only [CodeBuffer.link, Array.size_push, close]
    change _ ≤ a.buffer.branchCount
    omega
  serves c hc := ⟨(h.serves c hc).start, (h.serves c hc).guard⟩

/-- A guard waits for the slow path of the current frame. -/
theorem linkExit (h : σ.Books J D a) {j : Jump} {S : Shape} (hopen : j ∈ σ.opens)
    (hj : (j, S) ∈ σ.sites) (hS : S.Covers σ.frame.bound) :
    (σ.await j).Books J D { a with
      slow := { a.slow with
        exits := a.slow.exits.push j, exitGeneration := some σ.frame.generation } } where
  __ := h
  branch l hb := by
    rcases h.branch l hb with hk | ho | he
    · exact .inl hk
    · by_cases heq : l = j
      · exact .inr (.inr (Array.mem_push.2 (.inr heq)))
      · exact .inr (.inl ((List.mem_erase_of_ne heq).2 ho))
    · exact .inr (.inr (Array.mem_push.2 (.inl he)))
  tally := by
    have htally := h.tally
    have hlen := List.length_erase_add_one hopen
    simp only [Array.size_push, await]
    omega
  exit l hl := by
    rcases Array.mem_push.1 hl with hl | rfl
    · exact h.exit l hl
    · exact ⟨S, hj, hS⟩
  waiting := by simp [SlowPath.hasExits, await]
  generation := rfl
  serves c hc := ⟨(h.serves c hc).start, (h.serves c hc).guard⟩

variable {js : List Jump} {l : Label}

theorem mem_linkAll {b : CodeBuffer} {k : Link} :
    k ∈ (b.linkAll js l).links ↔ k ∈ b.links ∨ ∃ j ∈ js, k = ⟨j, .label l⟩ := by
  induction js generalizing b with
  | nil => simp [CodeBuffer.linkAll]
  | cons j js ih =>
    change k ∈ ((b.link j (.label l)).linkAll js l).links ↔ _
    rw [ih]
    simp only [CodeBuffer.link, Array.mem_push, List.mem_cons, exists_eq_or_imp]
    tauto

theorem size_linkAll (b : CodeBuffer) (js : List Jump) (l : Label) :
    (b.linkAll js l).links.size = b.links.size + js.length := by
  induction js generalizing b with
  | nil => rfl
  | cons j js ih =>
    refine (ih (b.link j (.label l))).trans ?_
    simp only [CodeBuffer.link, Array.size_push, List.length_cons]
    omega

theorem stream_linkAll (b : CodeBuffer) (js : List Jump) (l : Label) (s : Stream) :
    (b.linkAll js l).stream s = b.stream s := by
  induction js generalizing b with
  | nil => rfl
  | cons j js ih =>
    refine (ih (b.link j (.label l))).trans ?_
    cases s <;> rfl

theorem inst?_linkAll (b : CodeBuffer) (js : List Jump) (l l' : Label) :
    (b.linkAll js l).inst? l' = b.inst? l' := by
  rw [inst?, stream_linkAll, inst?]

theorem branchCount_linkAll (b : CodeBuffer) (js : List Jump) (l : Label) :
    (b.linkAll js l).branchCount = b.branchCount := by
  have hfast := stream_linkAll b js l .fast
  have hslow := stream_linkAll b js l .slow
  simp only [stream] at hfast hslow
  rw [branchCount, hfast, hslow, branchCount]

variable (h : σ.Books J D a)
include h

/-- The waiting guards are led to code that needs the registers of the frame only. -/
theorem leave {T : Shape} (hl : (l, T) ∈ σ.targets) (hT : σ.frame.bound.Covers T) :
    { σ with waiting := false }.Books J D { a with
      buffer := a.buffer.linkAll a.slow.exits.toList l
      slow := { a.slow with exits := #[], exitGeneration := none } } where
  __ := h
  link k hk := by
    rcases mem_linkAll.1 hk with hk | ⟨j, hj, rfl⟩
    · exact h.link k hk
    · obtain ⟨S, hS, hc⟩ := h.exit j (Array.mem_toList_iff.1 hj)
      exact ⟨S, hS, T, hl, hc.trans hT⟩
  branch l' hb := by
    obtain ⟨g, t, hb⟩ := hb
    rw [inst?_linkAll] at hb
    rcases h.branch l' ⟨g, t, hb⟩ with ⟨k, hk, hkl⟩ | ho | he
    · exact .inl ⟨k, mem_linkAll.2 (.inl hk), hkl⟩
    · exact .inr (.inl ho)
    · exact .inl ⟨_, mem_linkAll.2 (.inr ⟨l', Array.mem_toList_iff.2 he, rfl⟩), rfl⟩
  tally := by
    rw [size_linkAll, branchCount_linkAll, Array.length_toList]
    exact h.tally
  exit l' hl' := by simp at hl'
  waiting := rfl
  generation := rfl
  call l' i hi hc := h.call l' i (inst?_linkAll .. ▸ hi) hc
  cache l' n sp m hi := h.cache l' n sp m (inst?_linkAll .. ▸ hi)
  serves c hc := ⟨(h.serves c hc).start, (h.serves c hc).guard⟩

/-- Giving several branches one target. -/
theorem linkAll {js' : List Jump} (hopen : σ.opens.Perm (js ++ js'))
    (hl : ∀ j ∈ js, σ.Leads J ⟨j, .label l⟩) :
    { σ with opens := js' }.Books J D
      { a with buffer := a.buffer.linkAll js l } where
  __ := h
  link k hk := by
    rcases mem_linkAll.1 hk with hk | ⟨j, hj, rfl⟩
    · exact h.link k hk
    · exact hl j hj
  branch l' hb := by
    obtain ⟨g, t, hb⟩ := hb
    rw [inst?_linkAll] at hb
    rcases h.branch l' ⟨g, t, hb⟩ with ⟨k, hk, hkl⟩ | ho | he
    · exact .inl ⟨k, mem_linkAll.2 (.inl hk), hkl⟩
    · rcases List.mem_append.1 (hopen.mem_iff.1 ho) with hmem | hmem
      · exact .inl ⟨_, mem_linkAll.2 (.inr ⟨l', hmem, rfl⟩), rfl⟩
      · exact .inr (.inl hmem)
    · exact .inr (.inr he)
  tally := by
    have htally := h.tally
    have hlen := hopen.length_eq
    rw [List.length_append] at hlen
    rw [size_linkAll, branchCount_linkAll]
    change _ + a.slow.exits.size + js'.length ≤ _
    omega
  call l' i hi hc := h.call l' i (inst?_linkAll .. ▸ hi) hc
  cache l' n sp m hi := h.cache l' n sp m (inst?_linkAll .. ▸ hi)
  serves c hc := ⟨(h.serves c hc).start, (h.serves c hc).guard⟩

/-- Recording a label. -/
theorem mark (s : Stream) : (σ.mark s).Books J D a where
  __ := h
  link k hk := (h.link k hk).mono _ (List.Subset.refl _) (List.subset_cons_self _ _)
  serves c hc := (h.serves c hc).mono _ (List.Subset.refl _) (List.subset_cons_self _ _)

theorem weaken (s : Stream) (P : Shape) : (σ.weaken s P).Books J D a :=
  ⟨h.frame, h.link, h.branch, h.tally, h.exit, h.waiting, h.generation, h.call, h.cache, h.sp,
    h.opStart, h.complete, fun c hc => ⟨(h.serves c hc).start, (h.serves c hc).guard⟩⟩

/-- Another frame, while no guard waits. -/
theorem reframe (hw : σ.waiting = false) {f : Frame} (L : Loans)
    (hlimit : σ.frame.limit D ≤ f.limit D) : (σ.reframe f L).Books J D { a with frame := f } where
  __ := h
  frame := rfl
  exit l hl := by
    rw [show ({ a with frame := f } : Assembly).slow.exits = #[] from h.hasExits_eq_false hw] at hl
    simp at hl
  generation := by
    have hg := h.generation
    rw [hw] at hg
    change a.slow.exitGeneration = if σ.waiting then _ else _
    rw [hg, hw]
    rfl
  cache l n sp m hi := by
    obtain ⟨c, hc, huses, hle⟩ := h.cache l n sp m hi
    exact ⟨c, hc, huses, Nat.le_trans hle hlimit⟩
  sp c hc := by
    obtain ⟨hsp, hafter⟩ := h.sp c hc
    exact ⟨Nat.le_trans hsp hlimit, fun n hn => Nat.le_trans (hafter n hn) hlimit⟩
  serves c hc := ⟨(h.serves c hc).start, (h.serves c hc).guard⟩

/-! ### Calls -/

/-- Appending a call and recording it, together with its cache if it has one. -/
theorem emitCall (hi : i.isCall) (hsp : σ.frame.sp ≤ σ.frame.limit D) (P : Shape)
    (cs : List (CacheLayout Label)) (hserves : ∀ c ∈ cs, σ.Serves c)
    (hcache : ∀ n sp m, i = .callCache n sp m → ∃ c, (σ.caches ++ cs)[n]? = some c ∧
      (MachineM.cacheStub c.kind).uses ≤ sp ∧ sp ≤ σ.frame.limit D) :
    { σ.append s 1 P with pending := true, caches := σ.caches ++ cs }.Books J D { a with
      buffer := a.buffer.emit s i
      slow := a.slow.record (a.buffer.label s) σ.frame.sp } where
  __ := h
  link k hk := h.link k (links_emit a.buffer s _ ▸ hk)
  branch l hl := by
    rw [links_emit]
    refine h.branch l (hl.of_emit ?_)
    cases i <;> first | rfl | cases hi
  tally := by
    rw [links_emit]
    exact Nat.le_trans h.tally (branchCount_le_emit a.buffer s i)
  call l j hj hc := by
    rw [inst?_emit] at hj
    split at hj
    · next heq => exact ⟨_, Array.mem_push.2 (.inr rfl), heq.symm⟩
    · obtain ⟨c, hmem, hcl⟩ := h.call l j hj hc
      exact ⟨c, Array.mem_push.2 (.inl hmem), hcl⟩
  cache l n sp m hj := by
    rw [inst?_emit] at hj
    split at hj
    · cases hj
      exact hcache n sp m rfl
    · obtain ⟨c, hc, hr⟩ := h.cache l n sp m hj
      exact ⟨c, List.getElem?_append_left (List.getElem?_eq_some_iff.1 hc).1 ▸ hc, hr⟩
  sp c hc := by
    rcases Array.mem_push.1 hc with hc | rfl
    · exact h.sp c hc
    · exact ⟨hsp, nofun⟩
  opStart := by
    simp only [SlowPath.record, Array.size_push]
    exact Nat.le_succ_of_le h.opStart
  complete n c hc hn := by
    have hn : n < a.slow.opStart := hn.resolve_right nofun
    have hlt : n < a.slow.calls.size := Nat.lt_of_lt_of_le hn h.opStart
    refine h.complete n c ?_ (.inl hn)
    rw [← hc]
    simp [SlowPath.record, Array.getElem?_push, Nat.ne_of_lt hlt]
  serves c hc := by
    rcases List.mem_append.1 hc with hc | hc
    · exact ⟨(h.serves c hc).start, (h.serves c hc).guard⟩
    · exact ⟨(hserves c hc).start, (hserves c hc).guard⟩

/-- Completing the calls of the current operation. -/
theorem completeCalls {n : Nat} (hn : n ≤ σ.frame.limit D) (changes : Nat) (rejoin : Option Label) :
    { σ with pending := false }.Books J D { a with slow := a.slow.complete n changes rejoin } where
  __ := h
  call l i hi hc := by
    obtain ⟨c, hmem, hcl⟩ := h.call l i hi hc
    obtain ⟨k, hk, hck⟩ := Array.getElem_of_mem hmem
    refine ⟨_, Array.mem_mapIdx.2 ⟨k, hk, rfl⟩, ?_⟩
    rw [hck]
    split <;> exact hcl
  sp c hc := by
    obtain ⟨k, hk, rfl⟩ := Array.mem_mapIdx.1 hc
    obtain ⟨hsp, hafter⟩ := h.sp _ (Array.getElem_mem hk)
    split
    · refine ⟨hsp, fun m hm => ?_⟩
      cases hm
      exact hn
    · exact ⟨hsp, hafter⟩
  opStart := by
    simp only [SlowPath.complete, Array.size_mapIdx]
    exact h.opStart
  complete k c hc _ := by
    simp only [SlowPath.complete, Array.getElem?_mapIdx, Option.map_eq_some_iff] at hc
    obtain ⟨c', hc', rfl⟩ := hc
    split
    · rfl
    · next hk =>
      by_cases hstart : a.slow.opStart ≤ k
      · simpa [hstart, Option.isSome_iff_ne_none] using hk
      · exact h.complete k c' hc' (.inl (Nat.lt_of_not_le hstart))
  serves c hc := ⟨(h.serves c hc).start, (h.serves c hc).guard⟩

/-- Starting an operation when none is open. -/
theorem beginOp (hp : σ.pending = false) (pc resumePc : Nat) (monitored : Option UInt8) :
    σ.Books J D { a with slow := a.slow.beginOp pc resumePc monitored } where
  __ := h
  opStart := Nat.le_refl _
  complete k c hc _ := h.complete k c hc (.inr hp)

theorem hasOpenCall_eq_false (hp : σ.pending = false) : a.slow.hasOpenCall = false := by
  unfold SlowPath.hasOpenCall
  rw [List.any_eq_false]
  intro c hc
  obtain ⟨k, hk, rfl⟩ := List.getElem_of_mem (List.mem_of_mem_drop hc)
  have hs := h.complete k _ (Array.getElem?_eq_getElem (by simpa using hk)) (.inr hp)
  simpa using Option.isSome_iff_ne_none.1 hs

end Books

end Sketch

/-! ### Typed assemblies -/

/-- The code emitted so far agrees with the sketch, and so does the bookkeeping. -/
structure Assembly.Typed (a : Assembly) (J : Nat → Prop) (D : Nat) (σ : Sketch) : Prop where
  ready : σ.frame.Ready D σ.loans
  fast : (σ.shape .fast).Covers (σ.loans.shape σ.frame)
  books : σ.Books J D a
  typing : ∃ Γ, σ.Typing a.buffer (σ.frame.limit D) Γ

namespace Assembly.Typed

variable {a : Assembly} {J : Nat → Prop} {D : Nat} {σ : Sketch} {s : Stream} {P : Shape}

theorem weaken (h : a.Typed J D σ) (hP : (σ.shape s).Covers P)
    (hfast : s = .fast → P.Covers (σ.loans.shape σ.frame)) : a.Typed J D (σ.weaken s P) := by
  obtain ⟨Γ, ht⟩ := h.typing
  refine ⟨h.ready, ?_, h.books.weaken s P, _, ht.weaken hP⟩
  cases s with
  | fast => simpa [Sketch.weaken] using hfast rfl
  | slow => simpa [Sketch.weaken] using h.fast

theorem mark (h : a.Typed J D σ) (s : Stream) : a.Typed J D (σ.mark s) := by
  obtain ⟨Γ, ht⟩ := h.typing
  exact ⟨h.ready, h.fast, h.books.mark s, Γ, ht.mark s⟩

theorem label_eq (h : a.Typed J D σ) (s : Stream) : a.buffer.label s = σ.label s := by
  obtain ⟨Γ, ht⟩ := h.typing
  exact ht.label_eq s

/-- Appending straight-line code. -/
theorem emitAll (h : a.Typed J D σ) {is : List Inst}
    (hb : Block (σ.frame.limit D) is (σ.shape s) P)
    (hfast : s = .fast → P.Covers (σ.loans.shape σ.frame)) :
    ({ a with buffer := a.buffer.emitAll s is } : Assembly).Typed J D
      (σ.append s is.length P) := by
  obtain ⟨Γ, hΓ⟩ := h.typing
  refine ⟨h.ready, ?_, h.books.emitAll (fun i hi => ?_) P, hΓ.emitAll hb⟩
  · cases s with
    | fast => simpa [Sketch.append] using hfast rfl
    | slow => simpa [Sketch.append] using h.fast
  · have hl := hb.isLocal i hi
    exact ⟨Inst.target?_of_isLocal hl, by cases i <;> first | rfl | cases hl⟩

/-- Another frame, while no guard waits. -/
theorem reframe (h : a.Typed J D σ) (hw : σ.waiting = false) {f : Frame} {L : Loans}
    (hf : f.Ready D L) (hP : (σ.shape .fast).Covers (L.shape f))
    (hlimit : σ.frame.limit D ≤ f.limit D) :
    ({ a with frame := f } : Assembly).Typed J D (σ.reframe f L) := by
  obtain ⟨Γ, hΓ⟩ := h.typing
  exact ⟨hf, hP, h.books.reframe hw L hlimit, Γ,
    (hΓ.mono hlimit).congr (fun _ => rfl) rfl rfl rfl rfl⟩

end Assembly.Typed

namespace Sketch

/-- The second sketch comes after the first. -/
structure Precedes (σ σ' : Sketch) : Prop where
  argCount : σ'.frame.argCount = σ.frame.argCount
  localCount : σ'.frame.localCount = σ.frame.localCount
  sites : σ.sites ⊆ σ'.sites
  targets : σ.targets ⊆ σ'.targets

/-- The second sketch comes after the first, with no cache in between. -/
structure Grows (σ σ' : Sketch) : Prop extends σ.Precedes σ' where
  caches : σ'.caches = σ.caches

theorem Precedes.refl (σ : Sketch) : σ.Precedes σ :=
  ⟨rfl, rfl, List.Subset.refl _, List.Subset.refl _⟩

variable {σ₁ σ₂ σ₃ σ σ' : Sketch}

theorem Precedes.trans (h : σ₁.Precedes σ₂) (h' : σ₂.Precedes σ₃) : σ₁.Precedes σ₃ :=
  ⟨h'.argCount.trans h.argCount, h'.localCount.trans h.localCount,
    List.Subset.trans h.sites h'.sites, List.Subset.trans h.targets h'.targets⟩

theorem Precedes.stackBase (h : σ.Precedes σ') : σ'.frame.stackBase = σ.frame.stackBase := by
  rw [Frame.stackBase, h.argCount, h.localCount, Frame.stackBase]

theorem Precedes.varSlot_lt (h : σ.Precedes σ') {v : Bytecode.Var}
    (hv : σ.frame.varSlot v < σ.frame.stackBase) : σ'.frame.varSlot v < σ'.frame.stackBase := by
  rw [h.stackBase]
  cases v with
  | arg i => exact hv
  | loc i =>
    change σ'.frame.argCount + i.toNat < _
    rw [h.argCount]
    exact hv

theorem Grows.refl (σ : Sketch) : σ.Grows σ := ⟨.refl σ, rfl⟩

theorem Grows.trans (h : σ₁.Grows σ₂) (h' : σ₂.Grows σ₃) : σ₁.Grows σ₃ :=
  ⟨h.toPrecedes.trans h'.toPrecedes, h'.caches.trans h.caches⟩

/-- Nothing but the code has changed. -/
theorem Grows.of_code (hframe : σ'.frame = σ.frame) (hsites : σ.sites ⊆ σ'.sites)
    (htargets : σ.targets ⊆ σ'.targets) (hcaches : σ'.caches = σ.caches) : σ.Grows σ' :=
  ⟨⟨by rw [hframe], by rw [hframe], hsites, htargets⟩, hcaches⟩

end Sketch

end FastPath
