import FastPath.Proofs.Compile.Draft
import FastPath.Proofs.Frame.Memory
import FastPath.Proofs.Frame.Sample
import FastPath.Proofs.Machine.Steps

/-!
# What an emitter ensures

An emitter adds to both streams and links branches as it goes. To follow a run through code
that is still being emitted, one has to say where control may be: at the end of the fast
stream, waiting for what comes next; at the end of the slow stream; at a branch that has
been taken and not been linked; at a guard that waits for the slow path; on the way to the
code of some bytecode instruction; or nowhere, because the run is over. A `Scene` says which
machines may be in each of these places.

`AsmM.Emits` takes a scene through an emitter: in code that contains what the emitter leaves
behind, every run that is in the first scene gets to the second. As in `FrameM.Ensures`,
nothing is asked of an emitter that fails. Emitting only adds to the draft, so what was known
about the code before stays known; that is part of the judgement.

## Main results

* `AsmM.emits_bind` and its companions: one rule for each way to build an emitter.
* `AsmM.emits_lift`: what a tracker operation ensures, carried over.
-/

namespace FastPath

open MachineM

/-! ### Places -/

/-- A place that control may be at while code is being emitted. -/
inductive Spot where
  /-- Before the instruction at a label. -/
  | here (l : Label)
  /-- At a branch that has been taken. -/
  | taken (j : Jump)
  /-- At the code of a bytecode instruction. -/
  | pc (n : Nat)
  /-- The run is over. -/
  | stop (outcome : Outcome)

/-- Where a branch leads in finished code. -/
def Code.target (c : Code) (j : Jump) : Offset := (c.insts[c.place j]?.bind Inst.target?).getD 0

namespace Spot

/-- The stage that a run is in at a place. -/
def stage (c : Code) (m : Machine) : Spot → Stage
  | here l => .running (c.place l) m
  | taken j => .running (c.target j) m
  | pc n => .running ((c.offset? n).getD 0) m
  | stop outcome => .stopped outcome m

/-- Control is before an instruction. -/
def isHere : Spot → Bool
  | here _ => true
  | _ => false

end Spot

/-- Which machines may be where. -/
structure Scene where
  /-- At the end of the fast stream. -/
  fast : Machine → Prop
  /-- At the end of the slow stream. -/
  slow : Machine → Prop
  /-- At a guard that waits for the slow path. -/
  exit : Machine → Prop
  /-- At another branch that has been taken. -/
  jump : Jump → Machine → Prop
  /-- At the code of a bytecode instruction. -/
  pc : Nat → Machine → Prop
  /-- At the end of the run. -/
  stop : Outcome → Machine → Prop

namespace Scene

/-- Control is at the end of the fast stream. -/
def start (F : Machine → Prop) : Scene where
  fast := F
  slow _ := False
  exit _ := False
  jump _ _ := False
  pc _ _ := False
  stop _ _ := False

/-- At the end of a stream. -/
abbrev ends (S : Scene) : Stream → Machine → Prop
  | .fast => S.fast
  | .slow => S.slow

/-- Other machines at the end of a stream. -/
abbrev withEnd (S : Scene) (s : Stream) (F : Machine → Prop) : Scene :=
  match s with
  | .fast => { S with fast := F }
  | .slow => { S with slow := F }

/-- The scene allows a machine at a place. -/
def At (S : Scene) (a : Assembly) : Spot → Machine → Prop
  | .here l, m => (l = a.buffer.label .fast ∧ S.fast m) ∨ (l = a.buffer.label .slow ∧ S.slow m)
  | .taken j, m => (j ∈ a.slow.exits ∧ S.exit m) ∨ S.jump j m
  | .pc n, m => S.pc n m
  | .stop outcome, m => S.stop outcome m

/-- The second scene allows everything that the first one does. -/
structure Within (S S' : Scene) : Prop where
  fast : ∀ m, S.fast m → S'.fast m
  slow : ∀ m, S.slow m → S'.slow m
  exit : ∀ m, S.exit m → S'.exit m
  jump : ∀ j m, S.jump j m → S'.jump j m
  pc : ∀ n m, S.pc n m → S'.pc n m
  stop : ∀ o m, S.stop o m → S'.stop o m

theorem Within.refl (S : Scene) : S.Within S :=
  ⟨fun _ => id, fun _ => id, fun _ => id, fun _ _ => id, fun _ _ => id, fun _ _ => id⟩

variable {S S' : Scene}

theorem Within.trans {S'' : Scene} (h : S.Within S') (h' : S'.Within S'') : S.Within S'' where
  fast m hm := h'.fast m (h.fast m hm)
  slow m hm := h'.slow m (h.slow m hm)
  exit m hm := h'.exit m (h.exit m hm)
  jump j m hm := h'.jump j m (h.jump j m hm)
  pc n m hm := h'.pc n m (h.pc n m hm)
  stop o m hm := h'.stop o m (h.stop o m hm)

/-- A scene in which control is at the end of the fast stream, or nowhere any more. -/
theorem within_of_fast {F : Machine → Prop} {T : Outcome → Machine → Prop}
    (hfast : ∀ m, F m → S.fast m) (hstop : ∀ o m, T o m → S.stop o m) :
    ({ start F with stop := T } : Scene).Within S :=
  ⟨hfast, fun _ hm => hm.elim, fun _ hm => hm.elim, fun _ _ hm => hm.elim, fun _ _ hm => hm.elim,
    hstop⟩

theorem At.within {a : Assembly} {x : Spot} {m : Machine} (h : S.At a x m) (hS : S.Within S') :
    S'.At a x m := by
  cases x with
  | here l => exact h.imp (.imp_right (hS.fast m)) (.imp_right (hS.slow m))
  | taken j => exact h.imp (.imp_right (hS.exit m)) (hS.jump j m)
  | pc n => exact hS.pc n m h
  | stop o => exact hS.stop o m h

end Scene

/-- The number of instructions in a draft. -/
def Assembly.extent (a : Assembly) : Nat := a.buffer.fast.size + a.buffer.slow.size

/-- A draft does not shrink. -/
theorem Assembly.Grows.extent_le {a b : Assembly} (h : a.Grows b) : a.extent ≤ b.extent := by
  have hle : ∀ s, (a.buffer.stream s).size ≤ (b.buffer.stream s).size := by
    intro s
    by_contra hlt
    obtain ⟨i, hi⟩ : ∃ i, (a.buffer.stream s)[(b.buffer.stream s).size]? = some i :=
      ⟨_, Array.getElem?_eq_getElem (Nat.not_le.1 hlt)⟩
    have hb : (b.buffer.stream s)[(b.buffer.stream s).size]? = some i :=
      h.inst ⟨s, (b.buffer.stream s).size⟩ i hi
    simp at hb
  exact Nat.add_le_add (hle .fast) (hle .slow)

/-- A run that makes no use of caches and does not count. -/
structure Position.Plain (p : Position) : Prop where
  counting : p.counting = false
  caches : p.code.caches = #[]

namespace Position

/-- A run at some stage gets to where the scene allows it, and with `n` steps taken before it does
not take more than there are instructions in the draft. If control is before an instruction and
leaves the straight path, that takes at least one step. -/
def Reaches (p : Position) (here : Bool) (n : Nat) (s : Stage) (b : Assembly) (S : Scene) : Prop :=
  ∃ k x m, Steps p k s (x.stage p.code m) ∧ S.At b x m ∧ (here → x.isHere = false → 0 < k) ∧
    n + k ≤ b.extent

/-- Every run that the first scene allows gets to where the second one allows it, and executes no
more instructions on the way than have been added to the draft. -/
def Leads (p : Position) (a : Assembly) (S : Scene) (b : Assembly) (S' : Scene) : Prop :=
  ∀ x m, S.At a x m → p.Reaches x.isHere a.extent (x.stage p.code m) b S'

variable {p : Position} {a b c : Assembly} {S S' S'' : Scene}

theorem Leads.trans (h : p.Leads a S b S') (h' : p.Leads b S' c S'') : p.Leads a S c S'' := by
  intro x m hx
  obtain ⟨k, x₁, m₁, hs₁, hx₁, hk, hab⟩ := h x m hx
  obtain ⟨n, x₂, m₂, hs₂, hx₂, hn, hbc⟩ := h' x₁ m₁ hx₁
  refine ⟨k + n, x₂, m₂, hs₁.trans hs₂, hx₂, fun hhere hthere => ?_, by omega⟩
  cases hmid : x₁.isHere with
  | false => exact Nat.add_pos_left (hk hhere hmid) n
  | true => exact Nat.add_pos_right k (hn hmid hthere)

variable {n : Nat} {here : Bool} {g : Guard} {t : Offset}

/-- Nothing is executed. -/
theorem reaches_of_at {x : Spot} {m : Machine} (hn : n ≤ b.extent) (h : S.At b x m) :
    p.Reaches x.isHere n (x.stage p.code m) b S :=
  ⟨0, x, m, .refl _, h, (fun hhere hthere => by rw [hhere] at hthere; cases hthere), hn⟩

theorem leads_of_at (hle : a.extent ≤ b.extent) (h : ∀ x m, S.At a x m → S'.At b x m) :
    p.Leads a S b S' :=
  fun x m hx => reaches_of_at hle (h x m hx)

/-- A branch that has been taken is before an instruction. -/
theorem reaches_of_eq {o : Offset} {l : Label} {m : Machine} (hn : n ≤ b.extent)
    (ho : o = p.code.place l) (h : S.At b (.here l) m) : p.Reaches here n (.running o m) b S :=
  ⟨0, .here l, m, by rw [ho]; exact .refl _, h, (fun _ hthere => by cases hthere), hn⟩

theorem reaches_of_step {x : Spot} {s : Stage} {m : Machine} (hn : n + 1 ≤ b.extent)
    (hs : Steps p 1 s (x.stage p.code m)) (h : S.At b x m) : p.Reaches here n s b S :=
  ⟨1, x, m, hs, h, fun _ _ => Nat.one_pos, hn⟩

/-- To follow a scene is to follow each of its places. -/
theorem leads_of_places (hle : a.extent ≤ b.extent)
    (hfast : ∀ m, S.fast m →
      p.Reaches true a.extent (.running (p.code.place (a.buffer.label .fast)) m) b S')
    (hslow : ∀ m, S.slow m →
      p.Reaches true a.extent (.running (p.code.place (a.buffer.label .slow)) m) b S')
    (hexit : ∀ j ∈ a.slow.exits, ∀ m, S.exit m →
      p.Reaches false a.extent (.running (p.code.target j) m) b S')
    (hjump : ∀ j m, S.jump j m → p.Reaches false a.extent (.running (p.code.target j) m) b S')
    (hpc : ∀ n m, S.pc n m → S'.pc n m) (hstop : ∀ o m, S.stop o m → S'.stop o m) :
    p.Leads a S b S' := by
  intro x m hx
  cases x with
  | here l =>
    rcases hx with ⟨rfl, hm⟩ | ⟨rfl, hm⟩
    · exact hfast m hm
    · exact hslow m hm
  | taken j =>
    rcases hx with ⟨hj, hm⟩ | hm
    · exact hexit j hj m hm
    · exact hjump j m hm
  | pc n => exact reaches_of_at (x := .pc n) hle (hpc n m hx)
  | stop o => exact reaches_of_at (x := .stop o) hle (hstop o m hx)

section Staying

variable {n : Nat} {m : Machine} {j : Jump} (hn : n ≤ b.extent)
include hn

theorem reaches_fast (hl : b.buffer.label .fast = a.buffer.label .fast) (h : S'.fast m) :
    p.Reaches true n (.running (p.code.place (a.buffer.label .fast)) m) b S' :=
  reaches_of_at (x := .here _) hn (.inl ⟨hl.symm, h⟩)

theorem reaches_slow (hl : b.buffer.label .slow = a.buffer.label .slow) (h : S'.slow m) :
    p.Reaches true n (.running (p.code.place (a.buffer.label .slow)) m) b S' :=
  reaches_of_at (x := .here _) hn (.inr ⟨hl.symm, h⟩)

theorem reaches_exit (hj : j ∈ b.slow.exits) (h : S'.exit m) :
    p.Reaches false n (.running (p.code.target j) m) b S' :=
  reaches_of_at (x := .taken j) hn (.inl ⟨hj, h⟩)

theorem reaches_jump (h : S'.jump j m) : p.Reaches false n (.running (p.code.target j) m) b S' :=
  reaches_of_at (x := .taken j) hn (.inr h)

end Staying

/-! ### Single instructions -/

variable {o : Offset} {i : Inst} {m m' : Machine} {l : Label}

/-- A step only executes its instruction. -/
theorem Plain.step (hp : p.Plain) (hi : p.code.insts[o]? = some i) :
    MachineM.step { p with offset := o } m = MachineM.execute i { p with offset := o } m := by
  have hread : (read : MachineM Position) { p with offset := o } m = .ok { p with offset := o } m :=
    rfl
  have hredirect : MachineM.redirect? { p with offset := o } m = .ok none m := by
    have hnone : p.code.startCache? o = none := by
      simp [Code.startCache?, lastIndexOf?, hp.caches]
    unfold MachineM.redirect?
    rw [MachineM.bind_ok hread]
    simp only [hnone]
    rfl
  have hcount : MachineM.countStep { p with offset := o } m = .ok () m := by
    obtain ⟨code, function, counting, offset⟩ := p
    obtain rfl := hp.counting
    rfl
  unfold MachineM.step
  rw [MachineM.bind_ok hredirect]
  dsimp only
  rw [MachineM.bind_ok hread]
  dsimp only
  rw [hi]
  exact MachineM.bind_ok hcount

theorem Plain.steps (hp : p.Plain) (hi : p.code.insts[o]? = some i)
    {r : EStateM.Result Fault Machine Control}
    (hx : execute i { p with offset := o } m = r) :
    Steps p 1 (.running o m) (.after o r) :=
  .single ((hp.step hi).trans hx)

/-- An instruction that is no branch. -/
theorem Plain.steps_executes (hp : p.Plain) (hc : p.code.Contains a)
    (hl : a.buffer.inst? l = some i) (hx : Executes i m m') :
    Steps p 1 (.running (p.code.place l) m) (.running (p.code.place l.next) m') := by
  rw [Code.place_next]
  exact hp.steps (hc.inst l i hl (Inst.target?_of_isLocal hx.1)) (hx.2 _)

/-- A stretch of instructions that are no branches. -/
theorem Plain.steps_runs (hp : p.Plain) (hc : p.code.Contains a) {s : Stream} {is : List Inst}
    (hl : ∀ j i, is[j]? = some i → a.buffer.inst? ⟨s, n + j⟩ = some i) (hx : Runs is m m') :
    Steps p is.length (.running (p.code.place ⟨s, n⟩) m)
      (.running (p.code.place ⟨s, n + is.length⟩) m') := by
  induction hx generalizing n with
  | nil m => exact .refl _
  | @cons i is m₁ m₂ m₃ hi _ ih =>
    have hstep := hp.steps_executes hc (hl 0 i rfl) hi
    have hrest := ih (n := n + 1) fun j i hj => by
      have := hl (j + 1) i hj
      rwa [Nat.add_comm j 1, ← Nat.add_assoc] at this
    rw [List.length_cons, Nat.add_comm is.length, ← Nat.add_assoc]
    exact hstep.trans hrest

/-- A guard that trips leads to its target. -/
theorem Plain.steps_trips (hp : p.Plain) (hc : p.code.Contains a)
    (hl : a.buffer.inst? l = some (.branch g t)) (hx : g.Trips m) :
    Steps p 1 (.running (p.code.place l) m) (.running (p.code.target l) m) := by
  obtain ⟨t', hi⟩ := hc.branch l g t hl
  have htarget : p.code.target l = t' := by
    simp only [Code.target, hi]
    rfl
  rw [htarget]
  refine hp.steps hi (r := .ok (.goto t') m) ?_
  have hrun := (hx { p with offset := p.code.place l }).1
  have hgo := (hx { p with offset := p.code.place l }).2 t'
  simp only [execute]
  rw [bind_ok hrun, if_pos rfl, bind_ok hgo]
  rfl

theorem Plain.steps_passes (hp : p.Plain) (hc : p.code.Contains a)
    (hl : a.buffer.inst? l = some (.branch g t)) (hx : g.Passes m m') :
    Steps p 1 (.running (p.code.place l) m) (.running (p.code.place l.next) m') := by
  obtain ⟨t', hi⟩ := hc.branch l g t hl
  rw [Code.place_next]
  refine hp.steps hi (r := .ok .next m') ?_
  simp only [execute]
  rw [bind_ok (hx _)]
  rfl

/-- A branch that has been linked leads to its label. -/
theorem target_of_link (hc : p.code.Contains a) {j : Jump} (hk : ⟨j, .label l⟩ ∈ a.buffer.links) :
    p.code.target j = p.code.place l := by
  obtain ⟨g, t, hi, ht⟩ := hc.link _ hk
  simp only [Code.target, hi]
  exact (Option.some.inj ht).symm

end Position

/-! ### Code at the end of a stream -/

namespace Position

variable {p : Position} {a b : Assembly} {S : Scene}

variable {s : Stream} {w : List Inst}

theorem inst?_append (h : (b.buffer.stream s).toList = (a.buffer.stream s).toList ++ w) (j : Nat) :
    b.buffer.inst? ⟨s, (a.buffer.stream s).size + j⟩ = w[j]? := by
  simp only [CodeBuffer.inst?]
  rw [← Array.getElem?_toList, h, List.getElem?_append_right (by simp)]
  simp

theorem label_append (h : (b.buffer.stream s).toList = (a.buffer.stream s).toList ++ w) :
    b.buffer.label s = ⟨s, (a.buffer.stream s).size + w.length⟩ := by
  simp only [CodeBuffer.label, Label.mk.injEq, true_and]
  rw [← Array.length_toList, h, List.length_append, Array.length_toList]

/-- Straight-line code has been appended to a stream. -/
theorem Plain.reaches_append (hp : p.Plain) (hc : p.code.Contains b) {m m' : Machine} {n : Nat}
    (hn : n + w.length ≤ b.extent)
    (happ : (b.buffer.stream s).toList = (a.buffer.stream s).toList ++ w) (hr : Runs w m m')
    (h : S.At b (.here (b.buffer.label s)) m') :
    p.Reaches true n (.running (p.code.place (a.buffer.label s)) m) b S := by
  refine ⟨w.length, .here (b.buffer.label s), m', ?_, h, (fun _ h => by cases h), hn⟩
  rw [label_append happ]
  exact hp.steps_runs hc (fun j i hj => (inst?_append happ j).trans hj) hr

end Position

/-! ### The judgement -/

/-- Where emitted code ends up: in the code of a run that has memory for so many slots. The
calls of the operation that is being compiled are monitored as it says. -/
structure Placement where
  position : Position
  plain : position.Plain
  room : Nat
  monitored : Option UInt8

/-- What the next step of an emitter depends on: the frame and the ends of the streams. -/
structure Cursor where
  frame : Frame
  fast : Label
  slow : Label

namespace Cursor

/-- The end of a stream. -/
abbrev ends (k : Cursor) : Stream → Label
  | .fast => k.fast
  | .slow => k.slow

/-- After an instruction. -/
def next (k : Cursor) : Stream → Cursor
  | .fast => { k with fast := k.fast.next }
  | .slow => { k with slow := k.slow.next }

@[simp] theorem frame_next (k : Cursor) (s : Stream) : (k.next s).frame = k.frame := by
  cases s <;> rfl

@[simp] theorem fast_next (k : Cursor) : (k.next .slow).fast = k.fast := rfl

@[simp] theorem slow_next (k : Cursor) : (k.next .fast).slow = k.slow := rfl

end Cursor

/-- Where a draft ends. -/
def Assembly.cursor (a : Assembly) : Cursor :=
  ⟨a.frame, a.buffer.label .fast, a.buffer.label .slow⟩

namespace AsmM

variable {α β : Type} {E : Placement} {k : Cursor} {S : Scene}

/-- If the emitter succeeds, the draft has grown, and in code that contains it every run in
the scene gets to a scene that satisfies the postcondition. -/
def Emits (E : Placement) (x : AsmM α) (k : Cursor) (S : Scene)
    (Q : α → Cursor → Scene → Prop) : Prop :=
  ∀ a : Assembly, a.cursor = k → a.slow.monitored = E.monitored → ∀ r b, x a = .ok r b →
    a.Grows b ∧ b.slow.monitored = E.monitored ∧ ∃ S', Q r b.cursor S' ∧
      (E.position.code.Contains b → b.frame.maxSp ≤ E.room → E.position.Leads a S b S')

variable {x : AsmM α} {Q : α → Cursor → Scene → Prop} {S' : Scene} {s s' : Stream}
  {F G : Machine → Prop} {i : Inst} {a : Assembly} {j : Jump} {J : Jump → Machine → Prop}

theorem Emits.mono {Q' : α → Cursor → Scene → Prop} (h : Emits E x k S Q)
    (hQ : ∀ r k' S', Q r k' S' → Q' r k' S') : Emits E x k S Q' := by
  intro a ha hM r b hx
  obtain ⟨hg, hM', S', hq, hleads⟩ := h a ha hM r b hx
  exact ⟨hg, hM', S', hQ r _ S' hq, hleads⟩

/-- A scene that allows more. -/
theorem Emits.weaken (h : Emits E x k S' Q) (hS : S.Within S') : Emits E x k S Q := by
  intro a ha hM r b hx
  obtain ⟨hg, hM', S'', hq, hleads⟩ := h a ha hM r b hx
  exact ⟨hg, hM', S'', hq, fun hc hN =>
    (Position.leads_of_at (Nat.le_refl _) fun _ _ hy => hy.within hS).trans (hleads hc hN)⟩

/-- One emitter after the other. -/
theorem emits_bind {f : α → AsmM β} {Q : β → Cursor → Scene → Prop}
    (h : Emits E x k S fun r k' S' => Emits E (f r) k' S' Q) : Emits E (x >>= f) k S Q := by
  intro a ha hM r c hx
  rw [bind_run] at hx
  split at hx
  case h_2 => cases hx
  case h_1 r₁ b hxa =>
    obtain ⟨hg₁, hM₁, S₁, hk, hleads₁⟩ := h a ha hM r₁ b hxa
    obtain ⟨hg₂, hM₂, S₂, hq, hleads₂⟩ := hk b rfl hM₁ r c hx
    refine ⟨hg₁.trans hg₂, hM₂, S₂, hq, fun hc hN => ?_⟩
    exact (hleads₁ (hc.of_grows hg₂) (Nat.le_trans hg₂.maxSp hN)).trans (hleads₂ hc hN)

theorem emits_pure {r : α} (h : Q r k S) : Emits E (pure r) k S Q := by
  rintro a rfl hM r' b hx
  cases hx
  exact ⟨.refl a, hM, S, h, fun _ _ => Position.leads_of_at (Nat.le_refl _) fun _ _ => id⟩

theorem emits_throw {e : CompileError} : Emits E (throw e) k S Q := by
  intro a _ _ r b hx
  cases hx

/-- A step that looks at the draft and changes nothing. -/
theorem emits_query {g : Assembly → α} (hx : ∀ a, x a = .ok (g a) a)
    (h : ∀ a : Assembly, a.cursor = k → Q (g a) k S) : Emits E x k S Q := by
  rintro a rfl hM r b hrun
  rw [hx] at hrun
  cases hrun
  exact ⟨.refl a, hM, S, h a rfl, fun _ _ => Position.leads_of_at (Nat.le_refl _) fun _ _ => id⟩

theorem emits_frame {Q : Frame → Cursor → Scene → Prop} (h : Q k.frame k S) :
    Emits E frame k S Q := by
  refine emits_query (fun _ => rfl) fun a ha => ?_
  subst ha
  exact h

theorem emits_label {Q : Label → Cursor → Scene → Prop} (h : Q (k.ends s) k S) :
    Emits E (label s) k S Q := by
  refine emits_query (g := fun a => a.buffer.label s) (fun _ => rfl) fun a ha => ?_
  subst ha
  cases s <;> exact h

/-- If no guard waits, none leads to the slow path. -/
theorem emits_hasExits {Q : Bool → Cursor → Scene → Prop}
    (h : ∀ waiting, Q waiting k { S with exit := fun m => waiting = true ∧ S.exit m }) :
    Emits E hasExits k S Q := by
  rintro a rfl hM r b hx
  cases hx
  refine ⟨.refl a, hM, _, h _, fun _ _ => Position.leads_of_at (Nat.le_refl _) ?_⟩
  intro y m hy
  cases y with
  | taken j =>
    rcases hy with ⟨hj, hm⟩ | hy
    · refine .inl ⟨hj, ?_, hm⟩
      simp only [SlowPath.hasExits, Bool.not_eq_true', Array.isEmpty_eq_false_iff]
      exact Array.ne_empty_of_mem hj
    · exact .inr hy
  | _ => exact hy

/-- A step that emits nothing: the control stays where it is, unless a branch gets linked. -/
theorem emits_of_quiet {r : α} {y : Assembly → Assembly} (hx : ∀ a, x a = .ok r (y a))
    (hg : ∀ a : Assembly, a.cursor = k → a.Grows (y a))
    (hM : ∀ a, (y a).slow.monitored = a.slow.monitored) {k' : Cursor}
    (hk : ∀ a : Assembly, a.cursor = k → (y a).cursor = k')
    (hS : ∀ a : Assembly, a.cursor = k → E.position.code.Contains (y a) →
      (y a).frame.maxSp ≤ E.room → E.position.Leads a S (y a) S') (h : Q r k' S') :
    Emits E x k S Q := by
  intro a ha hMa r' b hrun
  rw [hx] at hrun
  cases hrun
  exact ⟨hg a ha, (hM a).trans hMa, S', (hk a ha).symm ▸ h, hS a ha⟩

/-- A change of the frame alone. -/
theorem emits_updateFrame {g : Frame → Frame} {Q : Unit → Cursor → Scene → Prop}
    (hmax : k.frame.maxSp ≤ (g k.frame).maxSp)
    (hF : (g k.frame).maxSp ≤ E.room → ∀ m, S.fast m → F m)
    (h : Q () { k with frame := g k.frame } { S with fast := F }) :
    Emits E (updateFrame g) k S Q := by
  refine emits_of_quiet (y := fun a => { a with frame := g a.frame }) (fun _ => rfl) ?_
    (fun _ => rfl) ?_ ?_ h
  · rintro a rfl
    exact .of_same rfl rfl (fun _ => id) rfl hmax
  · rintro a rfl
    rfl
  · rintro a rfl - hN
    refine Position.leads_of_at (Nat.le_refl _) fun y m hy => ?_
    cases y with
    | here l => exact hy.imp (.imp_right (hF hN m)) id
    | _ => exact hy

/-- A change of the bookkeeping that leaves the waiting guards alone. -/
theorem emits_updateSlow {g : SlowPath → SlowPath} {Q : Unit → Cursor → Scene → Prop}
    (hexits : ∀ p, (g p).exits = p.exits) (hmonitored : ∀ p, (g p).monitored = p.monitored)
    (hgrows : ∀ a : Assembly, a.Grows { a with slow := g a.slow }) (h : Q () k S) :
    Emits E (updateSlow g) k S Q := by
  refine emits_of_quiet (y := fun a => { a with slow := g a.slow }) (fun _ => rfl)
    (fun a _ => hgrows a) (fun a => hmonitored a.slow) ?_ ?_ h
  · rintro a rfl
    rfl
  · rintro a rfl - -
    refine Position.leads_of_at (Nat.le_refl _) fun y m hy => ?_
    cases y with
    | taken j =>
      rcases hy with ⟨hj, hm⟩ | hy
      · exact .inl ⟨by rw [hexits]; exact hj, hm⟩
      · exact .inr hy
    | _ => exact hy

/-! ### Emitting -/

theorem not_branch (hi : i.target? = none) (g : Guard) (t : Offset) : i ≠ .branch g t := by
  rintro rfl
  cases hi

theorem label_emit (b : CodeBuffer) (s s' : Stream) (i : Inst) :
    (b.emit s i).label s' = if s' = s then (b.label s').next else b.label s' := by
  cases s <;> cases s' <;> simp [CodeBuffer.emit, CodeBuffer.label, CodeBuffer.stream, Label.next]

theorem stream_emit (b : CodeBuffer) (s : Stream) (i : Inst) :
    ((b.emit s i).stream s).toList = (b.stream s).toList ++ [i] := by
  cases s <;> simp [CodeBuffer.emit, CodeBuffer.stream]

theorem extent_lt_emit (a : Assembly) (s : Stream) (i : Inst) :
    a.extent < ({ a with buffer := a.buffer.emit s i } : Assembly).extent := by
  cases s <;> simp [Assembly.extent, CodeBuffer.emit]

/-- The draft grows by an instruction. -/
theorem grows_emit (a : Assembly) (s : Stream) (hi : ∀ g t, i = .branch g t → t = Inst.unlinked) :
    a.Grows { a with buffer := a.buffer.emit s i } := by
  refine .of_append (fun s' => if s' = s then [i] else []) (fun s' => ?_) ?_ ?_ rfl (Nat.le_refl _)
  · cases s <;> cases s' <;> simp [CodeBuffer.emit, CodeBuffer.stream]
  · intro s' g t hmem
    split at hmem
    · exact hi g t (List.mem_singleton.1 hmem).symm
    · cases hmem
  · cases s <;> exact fun _ => id

theorem cursor_emit (a : Assembly) (s : Stream) (i : Inst) :
    ({ a with buffer := a.buffer.emit s i } : Assembly).cursor = a.cursor.next s := by
  cases s <;> simp [Assembly.cursor, Cursor.next, label_emit]

theorem at_end {m : Machine} (h : F m) : (S.withEnd s F).At a (.here (a.buffer.label s)) m := by
  cases s
  · exact .inl ⟨rfl, h⟩
  · exact .inr ⟨rfl, h⟩

/-- Something has been appended to one stream: only control at its end moves. -/
theorem leads_of_stream {p : Position} {b : Assembly} (hle : a.extent ≤ b.extent)
    (hlabel : ∀ s', s' ≠ s → b.buffer.label s' = a.buffer.label s')
    (hexits : b.slow.exits = a.slow.exits) (hends : ∀ s', s' ≠ s → ∀ m, S.ends s' m → S'.ends s' m)
    (hexit : ∀ m, S.exit m → S'.exit m) (hjump : ∀ j m, S.jump j m → S'.jump j m)
    (hpc : ∀ n m, S.pc n m → S'.pc n m) (hstop : ∀ o m, S.stop o m → S'.stop o m)
    (h : ∀ m, S.ends s m →
      p.Reaches true a.extent (.running (p.code.place (a.buffer.label s)) m) b S') :
    p.Leads a S b S' := by
  refine Position.leads_of_places hle ?_ ?_
    (fun j hj m hm => Position.reaches_exit hle (hexits ▸ hj) (hexit m hm))
    (fun j m hm => Position.reaches_jump hle (hjump j m hm)) hpc hstop
  · cases s with
    | fast => exact h
    | slow =>
      exact fun m hm => Position.reaches_fast hle (hlabel .fast nofun) (hends .fast nofun m hm)
  · cases s with
    | fast =>
      exact fun m hm => Position.reaches_slow hle (hlabel .slow nofun) (hends .slow nofun m hm)
    | slow => exact h

theorem label_emit_ne (b : CodeBuffer) (i : Inst) (h : s' ≠ s) :
    (b.emit s i).label s' = b.label s' := by
  rw [label_emit, if_neg h]

theorem ends_withEnd (h : s' ≠ s) : (S.withEnd s F).ends s' = S.ends s' := by
  cases s <;> cases s' <;> first | rfl | exact absurd rfl h

/-- An instruction that is neither a branch nor a call. -/
theorem emits_emit {Q : Unit → Cursor → Scene → Prop} (hi : i.target? = none)
    (hF : ∀ m, S.ends s m → ∃ m', Executes i m m' ∧ F m') (h : Q () (k.next s) (S.withEnd s F)) :
    Emits E (emit s i) k S Q := by
  refine emits_of_quiet (y := fun a => { a with buffer := a.buffer.emit s i })
    (fun _ => rfl) (fun a _ => grows_emit a s fun g t hg => absurd hg (not_branch hi g t))
    (fun _ => rfl) (fun a ha => ha ▸ cursor_emit a s i) ?_ h
  rintro a rfl hc -
  refine leads_of_stream (Nat.le_of_lt (extent_lt_emit a s i))
    (fun s' => label_emit_ne a.buffer i) rfl
    (fun s' hs' m hm => by rwa [ends_withEnd hs']) ?_ ?_ ?_ ?_ fun m hm => ?_
  · cases s <;> exact fun _ => id
  · cases s <;> exact fun _ _ => id
  · cases s <;> exact fun _ _ => id
  · cases s <;> exact fun _ _ => id
  · obtain ⟨m', hx, hm'⟩ := hF m hm
    exact E.plain.reaches_append (w := [i]) hc (extent_lt_emit a s i) (stream_emit a.buffer s i)
      (runs_singleton hx) (at_end hm')

/-- The machine that the code leaves. -/
theorem emits_emitAll {is : List Inst} {Q : Unit → Cursor → Scene → Prop}
    (hi : ∀ i ∈ is, i.target? = none) (hG : ∀ m, S.slow m → ∃ m', Runs is m m' ∧ G m')
    (h : ∀ l, Q () { k with slow := l } { S with slow := G }) :
    Emits E (emitAll .slow is) k S Q := by
  induction is generalizing S k with
  | nil =>
    refine emits_of_quiet (y := id) (fun _ => rfl) (fun a _ => .refl a) (fun _ => rfl)
      (fun a ha => ha) ?_ (h k.slow)
    rintro a rfl - -
    refine Position.leads_of_at (Nat.le_refl _) fun y m hy => hy.within ?_
    refine ⟨fun _ => id, fun m hm => ?_, fun _ => id, fun _ _ => id, fun _ _ => id, fun _ _ => id⟩
    obtain ⟨m', hr, hm'⟩ := hG m hm
    cases hr
    exact hm'
  | cons i is ih =>
    have hrun : Emits E (do emit .slow i; emitAll .slow is) k S Q := by
      refine emits_bind (emits_emit (F := fun m => ∃ m', Runs is m m' ∧ G m')
        (hi i List.mem_cons_self) (fun m hm => ?_) ?_)
      · obtain ⟨m', hr, hm'⟩ := hG m hm
        cases hr with
        | cons hx hr => exact ⟨_, hx, m', hr, hm'⟩
      · exact ih (fun j hj => hi j (List.mem_cons_of_mem i hj)) (fun _ => id) fun l => h l
    exact hrun

/-! ### Branches and links -/

/-- A branch that has no target yet. -/
theorem emits_branch {g : Guard} {J : Machine → Prop} {Q : Jump → Cursor → Scene → Prop}
    (hF : ∀ m, S.ends s m → (g.Trips m ∧ J m) ∨ ∃ m', g.Passes m m' ∧ F m')
    (h : Q (k.ends s) (k.next s)
      { S.withEnd s F with jump := fun j m => (j = k.ends s ∧ J m) ∨ S.jump j m }) :
    Emits E (branch s g) k S Q := by
  rintro a rfl hM r b hx
  cases hx
  have hlabel : a.cursor.ends s = a.buffer.label s := by cases s <;> rfl
  rw [hlabel] at h
  refine ⟨grows_emit a s fun g' t hg => by cases hg; rfl, hM, _,
    (cursor_emit a s (.branch g Inst.unlinked)).symm ▸ h, fun hc _ => ?_⟩
  have hinst : (a.buffer.emit s (.branch g Inst.unlinked)).inst? (a.buffer.label s) =
      some (.branch g Inst.unlinked) := by
    cases s <;> simp [CodeBuffer.inst?, CodeBuffer.emit, CodeBuffer.label, CodeBuffer.stream]
  refine leads_of_stream (Nat.le_of_lt (extent_lt_emit a s _))
    (fun s' => label_emit_ne a.buffer _) rfl
    ?_ ?_ (fun j m hm => .inr hm) ?_ ?_ fun m hm => ?_
  · intro s' hs' m hm
    have := ends_withEnd (S := S) (F := F) hs'
    cases s' <;> rwa [← this] at hm
  · cases s <;> exact fun _ => id
  · cases s <;> exact fun _ _ => id
  · cases s <;> exact fun _ _ => id
  · rcases hF m hm with ⟨htrip, hJ⟩ | ⟨m', hpass, hm'⟩
    · exact Position.reaches_of_step (x := .taken (a.buffer.label s)) (extent_lt_emit a s _)
        (E.plain.steps_trips hc hinst htrip) (.inr (.inl ⟨rfl, hJ⟩))
    · refine Position.reaches_of_step (m := m') (extent_lt_emit a s _)
        (x := .here ((a.buffer.emit s (.branch g Inst.unlinked)).label s)) ?_ ?_
      · rw [label_emit, if_pos rfl]
        exact E.plain.steps_passes hc hinst hpass
      · cases s
        · exact .inl ⟨rfl, hm'⟩
        · exact .inr ⟨rfl, hm'⟩

theorem grows_link (a : Assembly) (j : Jump) (t : LinkTarget) :
    a.Grows { a with buffer := a.buffer.link j t } :=
  .of_same rfl rfl (fun _ hk => Array.mem_push_of_mem _ hk) rfl (Nat.le_refl _)

/-- Leading a branch to the current end of a stream. -/
theorem emits_link {l : Label} {Q : Unit → Cursor → Scene → Prop} (hl : l = k.ends s)
    (hJ : ∀ i m, S.jump i m → (i = j ∧ F m) ∨ J i m) (hF : ∀ m, S.ends s m → F m)
    (h : Q () k { S.withEnd s F with jump := J }) : Emits E (link j l) k S Q := by
  refine emits_of_quiet (y := fun a => { a with buffer := a.buffer.link j (.label l) })
    (fun _ => rfl) (fun a _ => grows_link a j _) (fun _ => rfl) (fun a ha => ha) ?_ h
  rintro a rfl hc -
  have hlabel : l = a.buffer.label s := by cases s <;> exact hl
  refine Position.leads_of_places (Nat.le_refl _)
    (fun m hm => Position.reaches_fast (Nat.le_refl _) rfl ?_)
    (fun m hm => Position.reaches_slow (Nat.le_refl _) rfl ?_)
      (fun i hi m hm => Position.reaches_exit (Nat.le_refl _) hi ?_)
    (fun i m hm => ?_) ?_ ?_
  · cases s
    · exact hF m hm
    · exact hm
  · cases s
    · exact hm
    · exact hF m hm
  · cases s <;> exact hm
  · rcases hJ i m hm with ⟨rfl, hm⟩ | hm
    · refine Position.reaches_of_eq (Nat.le_refl _)
        (Position.target_of_link hc (Array.mem_push_self ..)) ?_
      rw [hlabel]
      cases s
      · exact .inl ⟨rfl, hm⟩
      · exact .inr ⟨rfl, hm⟩
    · exact Position.reaches_jump (Nat.le_refl _) hm
  · cases s <;> exact fun _ _ => id
  · cases s <;> exact fun _ _ => id

/-- A guard that waits for the slow path. -/
theorem emits_linkExit {X : Machine → Prop} {Q : Unit → Cursor → Scene → Prop}
    (hJ : ∀ i m, S.jump i m → (i = j ∧ X m) ∨ J i m) (hX : ∀ m, S.exit m → X m)
    (h : Q () k { S with exit := X, jump := J }) : Emits E (linkExit j) k S Q := by
  rintro a rfl hM r b hx
  unfold linkExit at hx
  rw [bind_run] at hx
  change (if a.slow.exitGeneration.any (· ≠ a.frame.generation) then _ else _ :
      AsmM Unit) a = _ at hx
  split at hx
  · cases hx
  · cases hx
    refine ⟨.of_same rfl rfl (fun _ => id) rfl (Nat.le_refl _), hM, _, h, fun hc _ => ?_⟩
    refine Position.leads_of_places (Nat.le_refl _)
      (fun m hm => Position.reaches_fast (Nat.le_refl _) rfl hm)
      (fun m hm => Position.reaches_slow (Nat.le_refl _) rfl hm)
      (fun i hi m hm => Position.reaches_exit (Nat.le_refl _)
        (Array.mem_push_of_mem _ hi) (hX m hm))
      (fun i m hm => ?_) (fun _ _ => id) fun _ _ => id
    rcases hJ i m hm with ⟨rfl, hm⟩ | hm
    · exact Position.reaches_exit (Nat.le_refl _) (Array.mem_push_self ..) hm
    · exact Position.reaches_jump (Nat.le_refl _) hm

theorem linkAll_eq (b : CodeBuffer) (js : List Jump) (l : Label) :
    b.linkAll js l = { b with links := b.links ++ (js.map fun j => ⟨j, .label l⟩).toArray } := by
  induction js generalizing b with
  | nil => simp [CodeBuffer.linkAll]
  | cons j js ih =>
    change (b.link j (.label l)).linkAll js l = _
    rw [ih]
    simp [CodeBuffer.link]

theorem extent_linkAll (a : Assembly) (js : List Jump) (l : Label) (p : SlowPath) :
    (⟨a.frame, a.buffer.linkAll js l, p⟩ : Assembly).extent = a.extent := by
  rw [linkAll_eq]
  rfl

theorem mem_linkAll (b : CodeBuffer) {js : List Jump} (hj : j ∈ js) (l : Label) :
    ⟨j, .label l⟩ ∈ (b.linkAll js l).links := by
  rw [linkAll_eq]
  simp [hj]

/-- Leading the waiting guards to code that stores the frame. -/
theorem emits_leave {Q : Label → Cursor → Scene → Prop}
    (hcode : ∀ i ∈ k.frame.syncCode, i.target? = none)
    (hG : ∀ m, S.exit m ∨ S.slow m → ∃ m', Runs k.frame.syncCode m m' ∧ G m')
    (h : ∀ l, Q k.slow { k with slow := l } { S with slow := G, exit := fun _ => False }) :
    Emits E leave k S Q := by
  rintro a rfl hM r b hx
  let linked : AsmM Unit := modify fun s =>
    { s with
      buffer := s.buffer.linkAll s.slow.exits.toList (s.buffer.label .slow)
      slow := { s.slow with exits := #[], exitGeneration := none } }
  have hrun : (do linked; emitAll .slow a.frame.syncCode; return a.cursor.slow) a = .ok r b := by
    unfold leave at hx
    rw [bind_run] at hx
    change (if a.slow.exitGeneration.any (· ≠ a.frame.generation) then _ else _ : AsmM Label) a =
      _ at hx
    split at hx
    · cases hx
    · exact hx
  have hlinked : Emits E linked a.cursor S fun _ k' S' => k' = a.cursor ∧
      S' = { S with slow := fun m => S.exit m ∨ S.slow m, exit := fun _ => False } := by
    refine emits_of_quiet (y := fun s => { s with
        buffer := s.buffer.linkAll s.slow.exits.toList (s.buffer.label .slow)
        slow := { s.slow with exits := #[], exitGeneration := none } })
      (fun _ => rfl) (fun a _ => ?_) (fun _ => rfl) (fun a ha => ?_) ?_ ⟨rfl, rfl⟩
    · simp only [linkAll_eq]
      exact .of_same rfl rfl (fun _ hk => Array.mem_append_left _ hk) rfl (Nat.le_refl _)
    · simp only [linkAll_eq]
      exact ha
    · rintro a' ha' hc -
      have hends : ∀ s, (a'.buffer.linkAll a'.slow.exits.toList (a'.buffer.label .slow)).label s =
          a'.buffer.label s := by
        intro s
        rw [linkAll_eq]
        cases s <;> rfl
      have hle := Nat.le_of_eq (extent_linkAll a' a'.slow.exits.toList (a'.buffer.label .slow)
        { a'.slow with exits := #[], exitGeneration := none }).symm
      refine Position.leads_of_places hle (fun m hm => Position.reaches_fast hle (hends .fast) hm)
        (fun m hm => Position.reaches_slow hle (hends .slow) (.inr hm)) (fun j hj m hm => ?_)
        (fun i m hm => Position.reaches_jump hle hm) (fun _ _ => id) fun _ _ => id
      refine Position.reaches_of_eq hle (Position.target_of_link hc
        (mem_linkAll a'.buffer (Array.mem_toList_iff.2 hj) _)) ?_
      exact .inr ⟨(hends .slow).symm, .inl hm⟩
  have hall : Emits E (do linked; emitAll .slow a.frame.syncCode; return a.cursor.slow)
      a.cursor S Q := by
    refine emits_bind (hlinked.mono ?_)
    rintro - k' S' ⟨rfl, rfl⟩
    exact emits_bind (emits_emitAll hcode hG fun l => emits_pure (h l))
  exact hall a rfl hM r b hrun

/-- What a tracker operation ensures. What is said about the new frame alone is known from
any one machine. -/
theorem emits_lift {x : FrameM α} {P : α → Frame → Prop} {F : α → Frame → Machine → Prop}
    (hP : ∃ m, FrameM.Ensures x k.frame m fun r f' _ => P r f')
    (hmax : ∀ r f', P r f' → k.frame.maxSp ≤ f'.maxSp)
    (hF : ∀ r f', P r f' → f'.maxSp ≤ E.room → ∀ m, S.fast m → FrameM.Ensures x k.frame m F)
    (h : ∀ r f' l, P r f' → Q r ⟨f', l, k.slow⟩ { S with fast := F r f' }) :
    Emits E (monadLift x) k S Q := by
  rintro ⟨f, ⟨fast, slow, links⟩, paths⟩ rfl hM r b hx
  change (monadLift (m := FrameM) fun _ => x ⟨f, fast⟩ : AsmM α) ⟨f, ⟨fast, slow, links⟩, paths⟩ = _
    at hx
  cases hrun : x ⟨f, fast⟩ with
  | error e s =>
    rw [hrun] at hx
    cases hx
  | ok r' s =>
    rw [hrun] at hx
    cases hx
    obtain ⟨m₀, hP⟩ := hP
    obtain ⟨is, m₁, hcode, hruns, hp'⟩ := hP fast r s hrun
    refine ⟨?_, hM, _, h r _ _ hp', fun hc hN => ?_⟩
    · refine .of_append (fun s => if s = .fast then is else []) (fun s => ?_) ?_ (fun _ => id)
        rfl (hmax r _ hp')
      · cases s <;> simp [CodeBuffer.stream, hcode]
      · intro s g t hmem
        cases s <;> simp at hmem
        exact absurd rfl (not_branch (Inst.target?_of_isLocal (hruns.isLocal _ hmem)) g t)
    · have hextent : (⟨f, ⟨fast, slow, links⟩, paths⟩ : Assembly).extent + is.length ≤
          (⟨s.frame, ⟨s.code, slow, links⟩, paths⟩ : Assembly).extent := by
        have hsize := congrArg List.length hcode
        rw [List.length_append, Array.length_toList, Array.length_toList] at hsize
        simp only [Assembly.extent]
        omega
      refine leads_of_stream (s := .fast) (Nat.le_trans (Nat.le_add_right ..) hextent) ?_ rfl ?_
        (fun _ => id) (fun _ _ => id)
        (fun _ _ => id) (fun _ _ => id) fun m hm => ?_
      · rintro (_ | _) hs
        · exact absurd rfl hs
        · rfl
      · rintro (_ | _) hs m hm
        · exact absurd rfl hs
        · exact hm
      · obtain ⟨is', m', hcode', hruns', hm'⟩ := hF r _ hp' hN m hm fast r s hrun
        have his : is' = is := List.append_cancel_left (hcode'.symm.trans hcode)
        exact E.plain.reaches_append (s := .fast) hc (his ▸ hextent) hcode (his ▸ hruns')
          (.inl ⟨rfl, hm'⟩)

end AsmM

end FastPath
