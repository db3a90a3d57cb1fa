import FastPath.Proofs.Frame.Aliasing
import FastPath.Proofs.Frame.Memory

/-!
# Storing a frame and loading it again

Around a call the code stores every slot, loses its registers, and loads them. The frame
describes the machine afterwards as it did before: `Frame.Visited.store_reload`. Storing alone puts
each value in the memory of its slot and leaves the registers as they are, and a frame that
has just been stored has nothing left to store.

Values are compared by `Value.same`, since a number in a double register may go to memory as
an integer.
-/

namespace FastPath

/-- Other contents for all registers. -/
def Machine.withRegs (m : Machine) (regs : Vector (Option UInt64) Reg.count)
    (fregs : Vector (Option Double) FReg.count) : Machine :=
  { m with regs, fregs }

namespace Frame

variable {f : Frame} {m m' : Machine} {env : Slot → Value} {s : Slot}

/-- Every slot has the same value in both machines. -/
def SameValues (f : Frame) (m m' : Machine) : Prop :=
  ∀ s, s < f.sp → ∃ u v, f.value? m s = some u ∧ f.value? m' s = some v ∧ u.same v

/-- The memory of every slot, in the second machine, decodes to the value that the slot has in
the first. -/
def Spilled (f : Frame) (m m' : Machine) : Prop :=
  ∀ s, s < f.sp → ∃ u v c, f.value? m s = some u ∧ m'.slots[s]? = some c ∧ c.decode = .ok v ∧
    u.same v

/-- Machines that are tracked as the same values have the same values. -/
theorem Tracks.sameValues (h : f.Tracks none m env) (h' : f.Tracks none m' env) :
    f.SameValues m m' := by
  intro s hs
  obtain ⟨u, hu, hfit⟩ := h.value hs
  obtain ⟨v, hv, hfit'⟩ := h'.value hs
  exact ⟨u, v, hu, hv, Value.same_trans hfit.same (Value.same_symm hfit'.same)⟩

theorem Tracks.spilled (h : f.Tracks none m env) (h' : f.Saved m' env) : f.Spilled m m' := by
  intro s hs
  obtain ⟨u, hu, hfit⟩ := h.value hs
  obtain ⟨c, v, hc, hv, hfit'⟩ := h'.stores s hs
  exact ⟨u, v, c, hu, hc, hv.1, Value.same_trans hfit.same (Value.same_symm hfit'.same)⟩

/-! ### Nothing to store -/

theorem Synced.syncCode_eq_nil (h : f.Synced) : f.syncCode = [] := by
  rw [syncCode, List.flatMap_eq_nil_iff]
  intro s hs
  rw [entrySyncCode]
  simp only [h s (List.mem_range.1 hs), if_true]

/-- Storing every slot of a sound frame leaves a frame with nothing to store, by either
way. -/
theorem Sound.syncAll_eq (h : f.Sound none) (code : Array Inst) :
    ∃ f', FrameM.syncAll ⟨f, code⟩ = .ok () ⟨f', code ++ f.syncCode.toArray⟩ ∧
      f' = f.mapLive Entry.synced ∧ f'.syncCode = [] ∧
      ∀ code', ∃ f'', FrameM.syncAll ⟨f', code'⟩ = .ok () ⟨f'', code'⟩ := by
  have hrun : ∀ (g : Frame) code, FrameM.syncAll ⟨g, code⟩ =
      .ok () ⟨g.mapLive Entry.synced, code ++ g.syncCode.toArray⟩ := by
    intro g code
    rw [← List.foldl_push_eq_append']
    rfl
  have hnil := (synced_mapLive h.sp_le).syncCode_eq_nil
  refine ⟨_, hrun f code, rfl, hnil, fun code' => ?_⟩
  rw [hrun, hnil, Array.append_empty]
  exact ⟨_, rfl⟩

/-! ### Storing and loading -/

/-- Whatever the registers have, loading them restores a frame whose values are saved. -/
theorem Tracks.reload (h : f.Tracks none m env) (hsaved : f.Saved m' env)
    (regs : Vector (Option UInt64) Reg.count) (fregs : Vector (Option Double) FReg.count) :
    ∃ m₂, Runs f.mergeCode (m'.withRegs regs fregs) m₂ ∧ f.Consistent m₂ ∧
      f.SameValues m m₂ := by
  have hlost : f.Saved (m'.withRegs regs fregs) env := hsaved.of_slots rfl
  obtain ⟨m₂, hr, -, -, ht⟩ := hlost.runs_mergeCode h.sound
  exact ⟨m₂, hr, ht.consistent, h.sameValues ht⟩

/-- A frame survives the loss of all registers between storing and loading it. Storing leaves
the registers as they are and puts each value in the memory of its slot; and once every slot
has been stored, nothing is left to store. -/
theorem Visited.store_reload {clean : Bool} (hf : Visited clean f) (hm : f.Consistent m) :
    ∃ m₁, Runs f.syncCode m m₁ ∧
      (∀ r, m₁.reg r = m.reg r) ∧ (∀ r, m₁.freg r = m.freg r) ∧ f.Spilled m m₁ ∧
      (∀ regs fregs, ∃ m₂, Runs f.mergeCode (m₁.withRegs regs fregs) m₂ ∧ f.Consistent m₂ ∧
        f.SameValues m m₂) ∧
      ∀ code, ∃ f', FrameM.syncAll ⟨f, code⟩ = .ok () ⟨f', code ++ f.syncCode.toArray⟩ ∧
        f'.Consistent m₁ ∧ f'.syncCode = [] ∧
        ∀ code', ∃ f'', FrameM.syncAll ⟨f', code'⟩ = .ok () ⟨f'', code'⟩ := by
  have hs := hf.coherent.1.sound
  have h := hm.tracks hs
  obtain ⟨m₁, hr, hmem, -, ht⟩ := h.runs_syncCode
  have hsaved := ht.saved_of_mapLive hs.sp_le
  refine ⟨m₁, hr, hmem.reg, hmem.freg, h.spilled hsaved, h.reload hsaved, fun code => ?_⟩
  obtain ⟨f', hrun, rfl, hnil, hagain⟩ := hs.syncAll_eq code
  exact ⟨_, hrun, ht.consistent, hnil, hagain⟩

/-- An argument is in a register and a copy of it only there; both slots come back after all
registers have got other contents. -/
theorem Visited.store_reload_copiedArgument :
    Visited true copiedArgument ∧ copiedArgument.regs.binding ⟨0⟩ = .data 0 ∧
    copiedArgument.syncCode ≠ [] ∧ copiedArgument.liveFault? = none ∧
    ∃ m₁ m₂, Runs copiedArgument.syncCode (copiedArgument.sample .int32 2) m₁ ∧
      Runs copiedArgument.mergeCode
        (m₁.withRegs (.replicate _ (some 77)) (.replicate _ none)) m₂ ∧
      copiedArgument.SameValues (copiedArgument.sample .int32 2) m₂ := by
  have hf := visited_copiedArgument
  have hm := (hf.coherent.1.sound.tracks_sample (D := Cell.anyCell) (k := .int32)
    (show copiedArgument.sp ≤ 2 by decide +kernel)).consistent
  obtain ⟨m₁, hr, -, -, -, hreload, -⟩ := hf.store_reload hm
  obtain ⟨m₂, hr', -, hsame⟩ := hreload (.replicate _ (some 77)) (.replicate _ none)
  exact ⟨hf, by decide +kernel, by decide +kernel, by decide +kernel, m₁, m₂, hr, hr', hsame⟩

end Frame

end FastPath
