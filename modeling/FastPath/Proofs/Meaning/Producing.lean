import FastPath.Proofs.Compile.Operation
import FastPath.Proofs.Meaning.Results

/-!
# What the compilation of an operation produces

`CompileM.Produces` is `AsmM.Emits` for emitters that also see the context and follow the
lifecycle of their operation. It says nothing about caches: the emitters in question make none.

An operation is proved right for one assignment of values at a time.

## Main results

* `CompileM.produces_bind` and its companions: one rule for each way to build an emitter.
-/

namespace FastPath

attribute [local instance] Cell.written

namespace CompileM

variable {α β γ : Type} {E : Placement} {c : Context} {k : Cursor} {S : Scene}

/-- If the emitter succeeds, the draft has grown, and in code that contains it every run in
the scene gets to a scene that satisfies the postcondition. -/
def Produces (E : Placement) (c : Context) (x : CompileM α) (k : Cursor) (S : Scene)
    (Q : α → Cursor → Scene → Prop) : Prop :=
  ∀ s : Compilation, s.asm.cursor = k → s.asm.slow.monitored = E.monitored →
    ∀ r s', x c s = .ok r s' →
      s'.caches = s.caches ∧ s'.labels = s.labels ∧ s.asm.Grows s'.asm ∧
      s'.asm.slow.monitored = E.monitored ∧ ∃ S', Q r s'.asm.cursor S' ∧
        (E.position.code.Contains s'.asm → s'.asm.frame.maxSp ≤ E.room →
          E.position.Leads s.asm S s'.asm S')

/-! ### Structural rules -/

variable {x : CompileM α} {Q : α → Cursor → Scene → Prop} {f : α → CompileM β}

theorem Produces.mono {Q' : α → Cursor → Scene → Prop} (h : Produces E c x k S Q)
    (hQ : ∀ r k' S', Q r k' S' → Q' r k' S') : Produces E c x k S Q' := by
  intro s hs hM r s' hx
  obtain ⟨hcaches, hlabels, hg, hM', S', hq, hleads⟩ := h s hs hM r s' hx
  exact ⟨hcaches, hlabels, hg, hM', S', hQ r _ S' hq, hleads⟩

theorem Produces.weaken {T : Scene} (h : Produces E c x k T Q) (hS : S.Within T) :
    Produces E c x k S Q := by
  intro s hs hM r s' hx
  obtain ⟨hcaches, hlabels, hg, hM', S'', hq, hleads⟩ := h s hs hM r s' hx
  exact ⟨hcaches, hlabels, hg, hM', S'', hq, fun hc hN =>
    (Position.leads_of_at (Nat.le_refl _) fun _ _ hy => hy.within hS).trans (hleads hc hN)⟩

theorem produces_pure {v : α} (h : Q v k S) : Produces E c (pure v) k S Q := by
  rintro s rfl hM r s' hx
  cases hx
  exact ⟨rfl, rfl, .refl _, hM, S, h, fun _ _ => Position.leads_of_at (Nat.le_refl _) fun _ _ => id⟩

/-- One emitter after the other. -/
theorem produces_bind {Q : β → Cursor → Scene → Prop}
    (h : Produces E c x k S fun r k' S' => Produces E c (f r) k' S' Q) :
    Produces E c (x >>= f) k S Q := by
  intro s hs hM r s'' hx
  rw [bind_run] at hx
  split at hx
  case h_2 => cases hx
  case h_1 r₁ s' hxs =>
    obtain ⟨hcaches₁, hlabels₁, hg₁, hM₁, S₁, hf, hleads₁⟩ := h s hs hM r₁ s' hxs
    obtain ⟨hcaches₂, hlabels₂, hg₂, hM₂, S₂, hq, hleads₂⟩ := hf s' rfl hM₁ r s'' hx
    refine ⟨hcaches₂.trans hcaches₁, hlabels₂.trans hlabels₁, hg₁.trans hg₂, hM₂, S₂, hq,
      fun hc hN => ?_⟩
    exact (hleads₁ (hc.of_grows hg₂) (Nat.le_trans hg₂.maxSp hN)).trans (hleads₂ hc hN)

/-- One step after another. -/
theorem Produces.bind {R : β → Cursor → Scene → Prop} (h : Produces E c x k S Q)
    (hf : ∀ r k' S', Q r k' S' → Produces E c (f r) k' S' R) : Produces E c (x >>= f) k S R :=
  produces_bind (h.mono hf)

theorem produces_read {f : Context → CompileM β} {Q : β → Cursor → Scene → Prop}
    (h : Produces E c (f c) k S Q) : Produces E c (read >>= f) k S Q :=
  h

theorem produces_throw {e : CompileError} : Produces E c (throw e) k S Q := by
  intro s _ _ r s' hx
  cases hx

theorem produces_fail {v : Violation} : Produces E c (fail v) k S Q := by
  intro s _ _ r s' hx
  cases hx

end CompileM

namespace AsmM

variable {α β : Type} {E : Placement} {c : Context} {k : Cursor} {S : Scene}

variable {x : AsmM α} {Q : α → Cursor → Scene → Prop} {R : β → Cursor → Scene → Prop}

/-- What an emitter into both streams produces. -/
theorem Emits.lift (h : Emits E x k S Q) : CompileM.Produces E c (liftM x) k S Q := by
  intro s hs hM r s' hx
  rw [CompileM.lift_run] at hx
  split at hx
  · next v b hrun =>
    cases hx
    obtain ⟨hg, hM', S', hq, hleads⟩ := h s.asm hs hM r b hrun
    exact ⟨rfl, rfl, hg, hM', S', hq, hleads⟩
  · cases hx

/-- One step after another. -/
theorem Emits.bind {f : α → AsmM β} (h : Emits E x k S Q)
    (hf : ∀ r k' S', Q r k' S' → Emits E (f r) k' S' R) : Emits E (x >>= f) k S R :=
  emits_bind (h.mono hf)

/-- A step of the compilation after one into both streams. -/
theorem Emits.next {f : α → CompileM β} (h : Emits E x k S Q)
    (hf : ∀ r k' S', Q r k' S' → CompileM.Produces E c (f r) k' S' R) :
    CompileM.Produces E c (liftM x >>= f) k S R :=
  h.lift.bind hf

/-- A tracker operation followed by another. -/
theorem Emits.step {x : FrameM α} {f : α → FrameM β} (h : Emits E (liftM x) k S Q)
    (hf : ∀ r k' S', Q r k' S' → Emits E (liftM (f r)) k' S' R) :
    Emits E (liftM (x >>= f)) k S R := by
  rw [liftM_bind]
  exact h.bind hf

theorem emits_done {r : α} (h : Q r k S) : Emits E (liftM (pure r : FrameM α)) k S Q := by
  have hpure : (liftM (pure r : FrameM α) : AsmM α) = pure r := by
    funext a
    rw [lift_run]
    rfl
  rw [hpure]
  exact emits_pure h

/-- Looking at the frame. -/
theorem emits_look {g : Frame → FrameM β}
    {Q : β → Cursor → Scene → Prop} (h : Emits E (liftM (g k.frame)) k S Q) :
    Emits E (liftM (FrameM.frame >>= g)) k S Q := by
  refine Emits.step (emits_query (x := liftM FrameM.frame) (g := Assembly.frame)
    (Q := fun f k' S' => k' = k ∧ S' = S ∧ f = k.frame) (fun a => ?_) ?_) ?_
  · rw [lift_run]
    rfl
  · rintro a rfl
    exact ⟨rfl, rfl, rfl⟩
  · rintro _ _ _ ⟨rfl, rfl, rfl⟩
    exact h

end AsmM

end FastPath
