import FastPath.Proofs.Compile.Access

/-!
# What the literals deliver

A new literal is an object that its slot owns, which is all that the notes about literals under
construction rely on.
-/

namespace FastPath

open Frame

/-- A literal under construction is an object in a slot of its own. -/
theorem Frame.Ready.initTarget {f : Frame} {D : Nat} {L : Loans} {s : Slot} (h : f.Ready D L)
    (hs : s < f.sp) (hi : f.initTarget? s ≠ none) : f.knownType s = .object :=
  ((h.neat _ ((h.tracks_model h.room).backing (live_of_lt hs)).1).init hi).2

namespace CompileM

variable {c : Context} {σ : Sketch}

/-- Noting what the top is. -/
theorem noteInit_settles {f : Frame} {L : Loans} {P : Shape} {D : Nat} {init : Option InitTarget}
    (h : init ≠ none → (f.backingEntry (f.peek 1)).role = .own ∧
      (f.backingEntry (f.peek 1)).type = .object) :
    FrameM.Settles D (FrameM.update fun f => f.setInitTarget (f.peek 1) init) f L P
      fun _ f' L' => f' = f.setInitTarget (f.peek 1) init ∧ L' = L :=
  FrameM.settles_update (fun hf => hf.setInitTarget h) id ⟨rfl, rfl, Nat.le_refl _, rfl, rfl⟩
    ⟨rfl, rfl⟩

/-- The slot of a new literal owns an object. -/
theorem backingEntry_pushSynced {f g : Frame} {D : Nat} {L : Loans} {types : TypeSet}
    (h : g.Ready D L) (hg : g = f.pushSynced types) (ht : types.knownType = .object) :
    (g.backingEntry (g.peek 1)).role = .own ∧ (g.backingEntry (g.peek 1)).type = .object := by
  have hle : f.sp ≤ f.entries.size := by
    have hsp := h.sound.sp_le
    rw [hg] at hsp
    simp only [pushSynced, push] at hsp
    split at hsp
    · omega
    · simp only [Array.size_push] at hsp
      omega
  have hentry : g.entry (g.peek 1) = Entry.inMemory types := by
    rw [hg, pushSynced, entry_push f _ _ hle, if_pos]
    rfl
  have hback : g.backing (g.peek 1) = g.peek 1 := by
    simp [backing, Entry.copyOf?, hentry, Entry.inMemory]
  rw [backingEntry, hback, hentry]
  exact ⟨rfl, ht⟩

/-- A new literal is pushed. -/
theorem newLiteral_delivers {stub : Stub} {arg : Nat} {init : InitTarget} (hσ : σ.Clean)
    (hstub : stub ∈ [.newInit, .newObject, .newArray]) :
    Delivers c (newLiteral stub arg init) σ fun _ σ' => σ'.Clean ∧
      σ'.frame.sp = σ.frame.sp + 1 := by
  have heffect : stub.uses = 0 ∧ stub.defs = 1 := by
    simp only [List.mem_cons, List.not_mem_nil, or_false] at hstub
    rcases hstub with rfl | rfl | rfl <;> exact ⟨rfl, rfl⟩
  refine delivers_ready fun hready _ => ?_
  have hemit : Delivers c (emitStub stub (Int64.ofNat arg)) σ fun _ σ' => σ'.Clean ∧
      σ'.frame.sp = σ.frame.sp + 1 ∧
      ∃ f types, σ'.frame = pushSynced f types ∧ types.knownType = .object := by
    refine delivers_bind (stubTypes_delivers fun types htypes => ?_)
    refine (emitStubTyped_delivers stub hσ (by rw [heffect.1]; exact hready.base)).mono ?_
    rintro - σ' ⟨hσ', hsp, hpush⟩
    obtain ⟨f, hf⟩ := hpush (by simp [heffect.2])
    exact ⟨hσ', by rw [hsp, heffect.1, heffect.2]; rfl, f, types, hf, htypes hstub⟩
  refine hemit.bind ?_
  rintro e σ₁ ⟨hσ₁, hsp₁, f, types, hf, ht⟩
  refine delivers_ready fun hready₁ _ => ?_
  refine (change_delivers (g := fun f => f.setInitTarget (f.peek 1) (some init)) hσ₁
    (noteInit_settles fun _ => backingEntry_pushSynced hready₁ hf ht)).bind ?_
  rintro - σ₂ ⟨hσ₂, hf₂, -⟩
  exact delivers_pure ⟨hσ₂, by rw [hf₂]; exact hsp₁⟩

theorem initGeneric_delivers (stub : Stub) {arg : Nat} (hσ : σ.Clean)
    (hn : σ.frame.stackBase + stub.uses ≤ σ.frame.sp) :
    Delivers c (initGeneric stub arg) σ fun _ σ' => σ'.Clean ∧
      σ'.frame.sp = σ.frame.sp - (stub.uses - 1) := by
  refine stubCall_delivers hσ (by omega) fun σ₂ hslow ho hw hL hsp => ?_
  refine (delivers_asm (AsmM.rejoinInline_delivers hslow ho hw hL)).bind ?_
  rintro - σ₃ ⟨hσ₃, hf₃⟩
  exact delivers_pure ⟨hσ₃, hf₃ ▸ hsp⟩

/-! ### Initializers in line -/

/-- The literal under construction and the value of an initializer are in registers. -/
theorem initOperands_delivers {obj value : Slot} {k : Reg → List Reg → Source → CompileM Emitted}
    {Q : Emitted → Sketch → Prop} (hσ : σ.Clean) (ho : obj < σ.frame.sp)
    (hval : value < σ.frame.sp) (hi : σ.frame.initTarget? obj ≠ none)
    (hk : ∀ r pins src σ', σ'.Lent σ.frame ((Loans.none.addPins pins).pinSource src) →
      r ∈ (Loans.none.addPins pins).pins → Delivers c (k r pins src) σ' Q) :
    Delivers c (do
      let r ← FrameM.dataReg obj
      let pins ← pin r
      let src ← FrameM.source value
      k r pins src) σ Q := by
  refine delivers_ready fun hready _ => ?_
  rw [hσ.loans] at hready
  have ht := hready.initTarget ho hi
  refine (dataReg_delivers hσ.lent (by decide) ho (hready.constant?_of_object ho (.inr ht))
    (by simp [ht])).bind ?_
  rintro r σ₁ ⟨h₁, hr⟩
  refine (pin_delivers h₁ hr).bind ?_
  rintro pins σ₂ ⟨h₂, hpins, hmem⟩
  refine (source_delivers h₂ ?_
    (by simp [FReg.allocatable]) hval).bind fun src σ₃ h₃ => hk r pins src σ₃ h₃ hmem
  rw [Loans.count_addPins, Loans.count_none]
  change 0 + _ + 1 < 8
  omega

/-- An initializer gives back all that it has borrowed. -/
theorem release_init (pins : List Reg) (src : Source) :
    (((Loans.none.addPins pins).pinSource src).unpinSource src).dropPins pins = Loans.none := by
  cases src <;> simp +contextual [Loans.none, Loans.pinSource, Loans.unpinSource, Loans.addPins,
    Loans.dropPins, Loans.addFPins, Loans.dropFPins]

/-- Setting a property of a literal under construction. -/
theorem initProp_delivers {name : Nat} (hσ : σ.Clean)
    (hn : σ.frame.stackBase + 2 ≤ σ.frame.sp) :
    Delivers c (initProp name) σ fun _ σ' => σ'.Clean ∧ σ'.frame.sp = σ.frame.sp - 1 := by
  refine delivers_read (delivers_queryFrame ?_)
  dsimp only
  split
  · exact initGeneric_delivers .initProp hσ hn
  · next slot hslot =>
    refine initOperands_delivers hσ (peek_lt (by decide) hn) (peek_lt (by decide) (by lia)) ?_ ?_
    · intro hnone
      simp [templateSlot?, hnone] at hslot
    intro r pins src σ₃ h₃ hr
    refine delivers_armed h₃ fun _ ha₃ => ?_
    refine (emit_delivers ha₃ rfl rfl ?_).bind ?_
    · exact ⟨(Loans.shape_pinSource _ src _).reg _ (Loans.shape_pin _ hr),
        Loans.reads_pinSource _ src _⟩
    rintro - σ₄ ⟨ha₄, hw₄⟩
    refine (unpinSource_delivers src (ha₄.releasing (hw₄.trans h₃.waiting))).bind fun _ σ₅ h₅ => ?_
    refine (unpinAll_delivers pins h₅).bind fun _ σ₆ h₆ => ?_
    rw [release_init] at h₆
    refine (pop_delivers h₆ ?_).bind fun _ σ₇ h₇ => delivers_pure ⟨h₇.clean, h₃.sp ▸ h₇.sp⟩
    rw [h₃.base, h₃.sp]
    lia

/-- Setting an element of a literal under construction. -/
theorem initElem_delivers (hσ : σ.Clean) (hn : σ.frame.stackBase + 3 ≤ σ.frame.sp) :
    Delivers c initElem σ fun _ σ' => σ'.Clean ∧ σ'.frame.sp = σ.frame.sp - 2 := by
  refine delivers_read (delivers_queryFrame ?_)
  dsimp only
  split
  · exact initGeneric_delivers .initElem hσ hn
  · next i hindex =>
    refine initOperands_delivers hσ (peek_lt (by decide) hn) (peek_lt (by decide) (by lia)) ?_ ?_
    · intro hnone
      simp [literalIndex?, hnone] at hindex
    intro r pins src σ₃ h₃ hr
    refine delivers_routed h₃ fun hroute => ?_
    have hobj := (Loans.shape_pinSource (Loans.none.addPins pins) src σ₃.frame).reg r
      (Loans.shape_pin _ hr)
    refine (delivers_asm (hroute.emit_fast rfl rfl ?_)).bind fun _ σ₄ h₄ => ?_
    · exact ⟨⟨hobj, trivial⟩, Loans.reads_pinSource _ src _⟩
    refine (delivers_asm (h₄.branch_fast (g := .extent .initializedLength r (.constant i)
      (.unsigned .gt)) ⟨hobj, trivial⟩)).bind fun covered σ₅ h₅ => ?_
    refine (delivers_asm (h₅.emit_fast rfl rfl ?_)).bind fun _ σ₆ h₆ => ?_
    · exact ⟨hobj, trivial⟩
    refine (delivers_asm (h₆.label_fast _ (.refl _) (.refl _))).bind fun l σ₇ h₇ => ?_
    refine (delivers_asm (h₇.link (.refl _) (.head _) (.head _) (.refl _))).bind fun _ σ₈ h₈ => ?_
    refine (unpinSource_delivers src h₈.releasing).bind fun _ σ₉ h₉ => ?_
    refine (unpinAll_delivers pins h₉).bind fun _ σ₁₀ h₁₀ => ?_
    rw [release_init] at h₁₀
    refine (popN_delivers h₁₀ ?_).bind fun _ σ₁₁ h₁₁ => delivers_pure ⟨h₁₁.clean, h₃.sp ▸ h₁₁.sp⟩
    rw [h₃.base, h₃.sp]
    lia

end CompileM

end FastPath
