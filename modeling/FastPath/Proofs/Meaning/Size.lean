import FastPath.Proofs.Meaning.Producing

/-!
# The size of the code

How many instructions an emitter adds at most. Most add a fixed number; storing and loading the
frame passes over its slots and adds at most two instructions for each. The bound is therefore given
by two numbers: instructions to be added, and passes over the slots. Pushing a value counts as an
instruction, so that the first number also bounds by how much the frame can grow.

## Main definitions

* `FrameM.Adds`, `AsmM.Adds`, `CompileM.Adds`: an emitter adds at most so many instructions and
  passes over the slots.

## Main results

* `CompileM.bitOp_adds`, `CompileM.bitNot_adds`: the bitwise operators.
-/

namespace FastPath

open Frame

/-- The number of slots that a pass over the frame may see. -/
def Frame.width (f : Frame) : Nat := max f.sp f.maxSp

/-- What `n` instructions and `m` passes over a frame come to. -/
def spent (n m width : Nat) : Nat := n + m * (2 * (width + n))

theorem spent_add {n₁ w w' : Nat} (n₂ m₁ m₂ : Nat) (hw : w' ≤ w + n₁) :
    spent n₁ m₁ w + spent n₂ m₂ w' ≤ spent (n₁ + n₂) (m₁ + m₂) w := by
  have h₁ : m₁ * (2 * (w + n₁)) ≤ m₁ * (2 * (w + (n₁ + n₂))) := Nat.mul_le_mul_left _ (by omega)
  have h₂ : m₂ * (2 * (w' + n₂)) ≤ m₂ * (2 * (w + (n₁ + n₂))) := Nat.mul_le_mul_left _ (by omega)
  simp only [spent, Nat.add_mul]
  omega

@[simp] theorem spent_zero (n width : Nat) : spent n 0 width = n := by simp [spent]

theorem spent_mono {n n' m m' w : Nat} (hn : n ≤ n') (hm : m ≤ m') : spent n m w ≤ spent n' m' w :=
  Nat.add_le_add hn (Nat.mul_le_mul hm (by omega))

/-! ### The tracker -/

/-- Code without branches has been added, and the frame has become wider by `n` at most. -/
structure Emission.Grows (n m : Nat) (s s' : Emission) : Prop where
  code : ∃ is : List Inst, s'.code.toList = s.code.toList ++ is ∧ (∀ i ∈ is, i.target? = none) ∧
    is.length ≤ spent n m s.frame.width
  width : s'.frame.width ≤ s.frame.width + n
  maxSp : s.frame.maxSp ≤ s'.frame.maxSp

namespace FrameM

variable {α β : Type} {n m n₁ m₁ : Nat} {x : FrameM α} {k : α → FrameM β}

/-- The operation adds at most `n` instructions and `m` passes over the slots. -/
def Adds (n m : Nat) (x : FrameM α) : Prop := ∀ s r s', x s = .ok r s' → s.Grows n m s'

theorem adds_pure {r : α} : Adds n m (pure r : FrameM α) := by
  intro s _ _ h
  cases h
  exact ⟨⟨[], by simp⟩, Nat.le_add_right _ _, Nat.le_refl _⟩

/-- One emitter after the other. -/
theorem Adds.bind (h : Adds n₁ m₁ x) (hk : ∀ r, Adds n m (k r)) :
    Adds (n + n₁) (m + m₁) (x >>= k) := by
  intro s r s' hrun
  rw [bind_run] at hrun
  split at hrun
  case h_2 => cases hrun
  case h_1 r₁ s₁ hx =>
    obtain ⟨⟨is₁, hcode₁, hplain₁, hlen₁⟩, hwidth₁, hmax₁⟩ := h s r₁ s₁ hx
    obtain ⟨⟨is₂, hcode₂, hplain₂, hlen₂⟩, hwidth₂, hmax₂⟩ := hk r₁ s₁ r s' hrun
    have hspent := spent_add n m₁ m hwidth₁
    rw [Nat.add_comm n₁, Nat.add_comm m₁] at hspent
    refine ⟨⟨is₁ ++ is₂, by rw [hcode₂, hcode₁, List.append_assoc], fun i hi => ?_, ?_⟩, by omega,
      Nat.le_trans hmax₁ hmax₂⟩
    · exact (List.mem_append.1 hi).elim (hplain₁ i) (hplain₂ i)
    · rw [List.length_append]
      omega

theorem Adds.mono (h : Adds n₁ m₁ x) (hn : n₁ ≤ n) (hm : m₁ ≤ m) : Adds n m x := by
  intro s r s' hrun
  obtain ⟨⟨is, hcode, hplain, hlen⟩, hwidth, hmax⟩ := h s r s' hrun
  exact ⟨⟨is, hcode, hplain, Nat.le_trans hlen (spent_mono hn hm)⟩,
    Nat.le_trans hwidth (Nat.add_le_add_left hn _), hmax⟩

/-- A step that adds nothing. -/
theorem Adds.next (h : Adds 0 0 x) (hk : ∀ r, Adds n m (k r)) : Adds n m (x >>= k) :=
  h.bind hk

theorem adds_frame {k : Frame → FrameM β} (h : ∀ f, Adds n m (k f)) : Adds n m (frame >>= k) := by
  intro s r s' hrun
  exact h s.frame s r s' hrun

theorem adds_throw {e : CompileError} : Adds n m (throw e : FrameM α) := by
  intro s r s' h
  cases h

theorem adds_fail {v : Violation} : Adds n m (fail v : FrameM α) := by
  intro s r s' h
  cases h

variable {g : Frame → Frame} {slot : Slot} {r : Reg}

theorem adds_widen (hmax : ∀ f, f.maxSp ≤ (g f).maxSp) (hwidth : ∀ f, (g f).width ≤ f.width + n) :
    Adds n m (update g) := by
  intro s r s' h
  cases h
  exact ⟨⟨[], by simp⟩, hwidth s.frame, hmax s.frame⟩

/-- A change of the frame that leaves its extent. -/
theorem adds_update (hsp : ∀ f, (g f).sp = f.sp) (hmax : ∀ f, (g f).maxSp = f.maxSp) :
    Adds n m (update g) :=
  adds_widen (fun f => (hmax f).ge) fun f => by
    simp only [width, hsp, hmax]
    exact Nat.le_add_right _ _

theorem adds_updateRegs {g : RegisterFile → RegisterFile} : Adds n m (updateRegs g) :=
  adds_update (fun _ => rfl) fun _ => rfl

theorem adds_updateSlot {g : Entry → Entry} : Adds n m (update (·.update slot g)) :=
  adds_update (fun _ => rfl) fun _ => rfl

theorem adds_emit {i : Inst} (hi : i.target? = none) : Adds 1 0 (emit i) := by
  intro s r s' h
  cases h
  exact ⟨⟨[i], by simp, by simpa using hi, Nat.le_add_right _ _⟩, Nat.le_add_right _ _,
    Nat.le_refl _⟩

theorem adds_push {e : Entry} : Adds 1 0 (push e) := by
  intro s r s' h
  cases h
  refine ⟨⟨[], by simp⟩, ?_, Nat.le_max_left _ _⟩
  simp only [Frame.width, Frame.push]
  omega

theorem adds_emitAll {is : List Inst} (hplain : ∀ i ∈ is, i.target? = none) (hlen : is.length ≤ n) :
    Adds n 0 (emitAll is) := by
  intro s r s' h
  cases h
  exact ⟨⟨is, by simp, hplain, Nat.le_trans hlen (Nat.le_add_right _ _)⟩, Nat.le_add_right _ _,
    Nat.le_refl _⟩

/-- A pass over the slots. -/
theorem adds_pass {g : Frame → List Inst} (hg : ∀ f, ∀ i ∈ g f, i.target? = none)
    (hlen : ∀ f : Frame, (g f).length ≤ 2 * f.sp) :
      Adds 0 1 (frame >>= fun f => emitAll (g f)) := by
  intro s r s' h
  cases h
  refine ⟨⟨g s.frame, by simp, hg s.frame, ?_⟩, Nat.le_add_right _ _, Nat.le_refl _⟩
  have hlen' := hlen s.frame
  have hwidth : s.frame.sp ≤ s.frame.width := Nat.le_max_left _ _
  simp only [spent]
  omega

theorem adds_marked {held : RegisterFile → Bool} {set clear : RegisterFile → RegisterFile}
    (h : Adds n m x) : Adds n m (marked held set clear x) := by
  intro s a s' hrun
  obtain ⟨s₁, hx, rfl⟩ := marked_ok hrun
  obtain ⟨hcode, hwidth, hmax⟩ := h _ a s₁ hx
  split
  · exact ⟨hcode, hwidth, hmax⟩
  · exact ⟨hcode, hwidth, hmax⟩

/-! ### Allocation -/

theorem evictedTag_adds (t : Option Tag) (b : Bool) : Adds 1 0 (do
    match t, b with
    | some t, false =>
      emit (.storeTag slot (.ofTag t))
      update (·.update slot fun e => { e with tagSynced := true })
    | _, _ => pure ()
    update (·.update slot fun e => { e with data := .memory, dataSynced := true })) := by
  split
  · exact (adds_emit rfl).bind fun _ => adds_updateSlot.next fun _ => adds_updateSlot
  · exact adds_updateSlot

theorem evictData_adds : Adds 2 0 (evictData r slot) := by
  refine adds_frame fun f => ?_
  dsimp only
  split
  · exact (evictedTag_adds _ _).mono (by decide) (by decide)
  · exact (adds_emit rfl).bind fun _ => evictedTag_adds _ _

theorem evictTag_adds : Adds 2 0 (evictTag r slot) := by
  refine adds_frame fun f => ?_
  dsimp only
  split
  · exact adds_update (fun _ => rfl) fun _ => rfl
  · exact (adds_emit rfl).bind fun _ => adds_update (fun _ => rfl) fun _ => rfl

theorem evict_adds : Adds 2 0 (evict r) := by
  refine adds_frame fun f => ?_
  split
  · exact evictData_adds.bind fun _ => adds_update (fun _ => rfl) fun _ => rfl
  · exact evictTag_adds.bind fun _ => adds_update (fun _ => rfl) fun _ => rfl
  · exact adds_pure
  · exact adds_pure

theorem evictDouble_adds {r : FReg} : Adds 1 0 (evictDouble r) := by
  refine adds_frame fun f => ?_
  split
  · refine adds_frame fun f => ?_
    dsimp only
    split
    · exact adds_update (fun _ => rfl) fun _ => rfl
    · exact (adds_emit rfl).bind fun _ => adds_update (fun _ => rfl) fun _ => rfl
  · exact adds_pure

theorem alloc_adds : Adds 2 0 alloc := by
  refine adds_frame fun f => ?_
  split
  · exact adds_updateRegs.next fun _ => adds_pure
  · split
    · exact adds_throw
    · exact evict_adds.bind fun _ => adds_updateRegs.next fun _ => adds_pure

theorem allocDouble_adds : Adds 1 0 allocDouble := by
  refine adds_frame fun f => ?_
  split
  · exact adds_updateRegs.next fun _ => adds_pure
  · split
    · exact adds_throw
    · exact evictDouble_adds.bind fun _ => adds_updateRegs.next fun _ => adds_pure

theorem free_adds : Adds 0 0 (free r) := by
  refine adds_frame fun f => ?_
  dsimp only
  split
  · exact adds_updateRegs
  · exact adds_fail.next fun _ => adds_updateRegs

theorem freeDouble_adds {r : FReg} : Adds 0 0 (freeDouble r) := by
  refine adds_frame fun f => ?_
  dsimp only
  split
  · exact adds_updateRegs
  · exact adds_fail.next fun _ => adds_updateRegs

theorem pin_adds : Adds 0 0 (pin r) :=
  adds_frame fun _ => adds_updateRegs.next fun _ => adds_pure

theorem tagOperand_adds : Adds 0 0 (tagOperand slot) := by
  refine adds_frame fun f => ?_
  dsimp only
  split
  · split <;> exact adds_pure
  · refine adds_fail.next fun _ => ?_
    split <;> exact adds_pure

/-! ### Pushing registers -/

theorem pushTyped_adds {t : KnownType} : Adds 1 0 (pushTyped t r) := by
  have hpush : Adds 1 0 (do
      let slot ← push { Entry.unsynced t (.ofKnown t) with data := .reg r }
      updateRegs (·.bind r (.data slot))
      return slot) := adds_push.bind fun _ => adds_updateRegs.next fun _ => adds_pure
  unfold pushTyped
  dsimp only
  split
  · exact adds_fail
  · refine adds_frame fun f => ?_
    split
    · exact hpush
    · exact adds_fail

theorem pushDouble_adds {r : FReg} : Adds 1 0 (pushDouble r) := by
  refine adds_frame fun f => ?_
  dsimp only
  split
  · exact adds_push.bind fun _ => adds_updateRegs.next fun _ => adds_pure
  · exact adds_fail.next fun _ => adds_push.bind fun _ => adds_updateRegs.next fun _ => adds_pure

theorem pushRegs_adds {t : Reg} {types : TypeSet} : Adds 1 0 (pushRegs t r types) := by
  unfold pushRegs
  split
  · exact free_adds.next fun _ => pushTyped_adds.bind fun _ =>
      adds_updateSlot.next fun _ => adds_pure
  · refine adds_frame fun f => ?_
    dsimp only
    split
    · split
      · exact adds_push.bind fun _ => adds_updateRegs.next fun _ => adds_updateRegs.next fun _ =>
          adds_pure
      · exact adds_fail
    · exact adds_fail

/-! ### Syncing -/

end FrameM

namespace Frame

/-- The code for one slot is one or two instructions, none of which is a branch. -/
theorem entrySyncCode_small (f : Frame) (slot : Slot) :
    (f.entrySyncCode slot).length ≤ 2 ∧ ∀ i ∈ f.entrySyncCode slot, i.target? = none := by
  unfold entrySyncCode copySyncCode dataSyncCode tagSyncCode
  dsimp only
  repeat' split
  all_goals simp [Inst.target?]

theorem entryMergeCode_small (f : Frame) (slot : Slot) :
    (f.entryMergeCode slot).length ≤ 2 ∧ ∀ i ∈ f.entryMergeCode slot, i.target? = none := by
  unfold entryMergeCode
  dsimp only
  repeat' split
  all_goals simp [Inst.target?]

/-- A pass over the slots adds at most two instructions for each. -/
theorem pass_small {code : Slot → List Inst}
    (h : ∀ s, (code s).length ≤ 2 ∧ ∀ i ∈ code s, i.target? = none) (n : Nat) :
    ((List.range n).flatMap code).length ≤ 2 * n ∧
      ∀ i ∈ (List.range n).flatMap code, i.target? = none := by
  refine ⟨?_, fun i hi => ?_⟩
  · induction n with
    | zero => simp
    | succ n ih =>
      have := (h n).1
      simp only [List.range_succ, List.flatMap_append, List.flatMap_singleton, List.length_append]
      omega
  · obtain ⟨s, -, hi⟩ := List.mem_flatMap.1 hi
    exact (h s).2 i hi

theorem syncCode_small (f : Frame) :
    f.syncCode.length ≤ 2 * f.sp ∧ ∀ i ∈ f.syncCode, i.target? = none :=
  pass_small f.entrySyncCode_small f.sp

theorem mergeCode_small (f : Frame) :
    f.mergeCode.length ≤ 2 * f.sp ∧ ∀ i ∈ f.mergeCode, i.target? = none :=
  pass_small f.entryMergeCode_small f.sp

end Frame

namespace FrameM

variable {slot : Slot}

theorem syncEntry_adds : Adds 2 0 (syncEntry slot) :=
  adds_frame fun f =>
    (adds_emitAll (f.entrySyncCode_small slot).2 (f.entrySyncCode_small slot).1).bind
    fun _ => adds_updateSlot

theorem syncAll_adds : Adds 0 1 syncAll := by
  unfold syncAll
  rw [← bind_assoc]
  exact (adds_pass (fun f => f.syncCode_small.2) fun f => f.syncCode_small.1).bind
    fun _ => adds_update (fun _ => rfl) fun _ => rfl

theorem ensureNoTemps_adds : Adds 0 0 ensureNoTemps := by
  refine adds_frame fun f => ?_
  split
  · exact adds_fail
  · exact adds_pure

theorem syncAndKill_adds : Adds 0 1 syncAndKill :=
  ensureNoTemps_adds.next fun _ => syncAll_adds.bind fun _ =>
    adds_update (fun _ => rfl) fun _ => rfl

theorem check_adds : Adds 0 0 check := by
  refine adds_frame fun f => ?_
  split
  · exact adds_fail
  · exact adds_pure

/-! ### Loading -/

theorem dataReg_adds : Adds 3 0 (dataReg slot) := by
  refine adds_frame fun f => ?_
  dsimp only
  split
  · exact adds_fail
  · split
    · exact adds_updateRegs.next fun _ => adds_pure
    · exact adds_fail
    · exact alloc_adds.bind fun _ => (adds_emit rfl).bind fun _ => adds_updateRegs.next fun _ =>
        adds_updateSlot.next fun _ => adds_pure

theorem tagReg_adds : Adds 3 0 (tagReg slot) := by
  refine adds_frame fun f => ?_
  dsimp only
  split
  · split
    · exact adds_updateRegs.next fun _ => adds_pure
    · exact alloc_adds.bind fun _ => (adds_emit rfl).bind fun _ => adds_updateRegs.next fun _ =>
        adds_updateSlot.next fun _ => adds_pure
  · exact adds_fail

theorem doubleReg_adds : Adds 2 0 (doubleReg slot) := by
  refine adds_frame fun f => ?_
  dsimp only
  split
  · exact adds_fail
  · split
    · exact adds_updateRegs.next fun _ => adds_pure
    · exact adds_fail
    · exact allocDouble_adds.bind fun _ => (adds_emit rfl).bind fun _ =>
        adds_updateRegs.next fun _ =>
        adds_updateSlot.next fun _ => adds_pure

theorem loadTemp_adds {src : Operand} : Adds 3 0 (loadTemp src) :=
  alloc_adds.bind fun _ => (adds_emit rfl).bind fun _ => adds_pure

theorem copyReg_adds {r : Reg} : Adds 3 0 (copyReg r) :=
  (withPinned_eq _ _ ▸ adds_marked alloc_adds).bind fun _ => (adds_emit rfl).bind fun _ => adds_pure

theorem copyData_adds : Adds 3 0 (copyData slot) := by
  refine adds_frame fun f => ?_
  dsimp only
  split
  · exact loadTemp_adds
  · split
    · exact copyReg_adds
    · exact loadTemp_adds
    · exact adds_fail

/-- Copying a number. -/
theorem copyNumber_adds : Adds 5 0 (copyNumber slot) := by
  refine adds_frame fun f => ?_
  dsimp only
  split
  · split
    · exact adds_fail
    · exact allocDouble_adds.bind fun _ => (adds_emit rfl).bind fun _ => adds_pure
  · exact dataReg_adds.bind fun _ =>
      (withPinned_eq _ _ ▸ adds_marked allocDouble_adds).bind fun _ =>
      (adds_emit rfl).bind fun _ => adds_pure
  · exact (withDoublePinned_eq _ _ ▸ adds_marked allocDouble_adds).bind fun _ =>
      (adds_emit rfl).bind fun _ => adds_pure
  · exact syncEntry_adds.bind fun _ => allocDouble_adds.bind fun _ => (adds_emit rfl).bind fun _ =>
      adds_pure

theorem source_adds : Adds 6 0 (source slot) := by
  refine adds_frame fun f => ?_
  dsimp only
  split
  · exact adds_pure
  · exact doubleReg_adds.bind fun _ => adds_updateRegs.next fun _ => adds_pure
  · exact tagReg_adds.bind fun _ => adds_updateRegs.next fun _ => dataReg_adds.bind fun _ =>
      adds_updateRegs.next fun _ => adds_pure
  · exact dataReg_adds.bind fun _ => adds_updateRegs.next fun _ => adds_pure

theorem unpinSource_adds {src : Source} : Adds 0 0 (unpinSource src) := by
  cases src with
  | constant _ => exact adds_pure
  | typed _ _ | double _ => exact adds_updateRegs
  | regs _ _ => exact adds_updateRegs.next fun _ => adds_updateRegs

end FrameM

/-! ### Both streams -/

/-- The draft has grown, and the frame has become wider by `n` at most. -/
structure Assembly.GrowsBy (n m : Nat) (a b : Assembly) : Prop where
  grows : a.Grows b
  extent : b.extent ≤ a.extent + spent n m a.frame.width
  width : b.frame.width ≤ a.frame.width + n

namespace Assembly.GrowsBy

variable {n m n' m' : Nat} {a b c : Assembly}

theorem trans (h : a.GrowsBy n m b) (h' : b.GrowsBy n' m' c) : a.GrowsBy (n' + n) (m' + m) c where
  grows := h.grows.trans h'.grows
  extent := by
    have hspent := spent_add n' m m' h.width
    rw [Nat.add_comm n, Nat.add_comm m] at hspent
    have := h.extent
    have := h'.extent
    omega
  width := by
    have := h.width
    have := h'.width
    omega

theorem mono (h : a.GrowsBy n m b) (hn : n ≤ n') (hm : m ≤ m') : a.GrowsBy n' m' b where
  grows := h.grows
  extent := Nat.le_trans h.extent (Nat.add_le_add_left (spent_mono hn hm) _)
  width := Nat.le_trans h.width (Nat.add_le_add_left hn _)

/-- No code has been added. -/
theorem of_extent (hg : a.Grows b) (he : b.extent = a.extent)
    (hw : b.frame.width ≤ a.frame.width + n) :
    a.GrowsBy n m b :=
  ⟨hg, Nat.le_trans he.le (Nat.le_add_right _ _), hw⟩

theorem refl (a : Assembly) : a.GrowsBy n m a := of_extent (.refl a) rfl (Nat.le_add_right _ _)

end Assembly.GrowsBy

namespace AsmM

variable {α β : Type} {n m n₁ m₁ : Nat} {x : AsmM α} {k : α → AsmM β}

/-- The emitter adds at most `n` instructions and `m` passes over the slots. -/
def Adds (n m : Nat) (x : AsmM α) : Prop := ∀ a r b, x a = .ok r b → a.GrowsBy n m b

theorem adds_pure {r : α} : Adds n m (pure r : AsmM α) := by
  intro a _ _ h
  cases h
  exact .refl a

/-- One emitter after the other. -/
theorem Adds.bind (h : Adds n₁ m₁ x) (hk : ∀ r, Adds n m (k r)) :
    Adds (n + n₁) (m + m₁) (x >>= k) := by
  intro a r b hrun
  rw [bind_run] at hrun
  split at hrun
  case h_2 => cases hrun
  case h_1 r₁ a₁ hx => exact (h a r₁ a₁ hx).trans (hk r₁ a₁ r b hrun)

theorem Adds.next (h : Adds 0 0 x) (hk : ∀ r, Adds n m (k r)) : Adds n m (x >>= k) := h.bind hk

theorem adds_query {g : Assembly → α} (hx : ∀ a, x a = .ok (g a) a) : Adds n m x := by
  intro a r b h
  rw [hx] at h
  cases h
  exact .refl a

theorem adds_throw {e : CompileError} : Adds n m (throw e : AsmM α) := by
  intro a r b h
  cases h

theorem adds_stale {cause : Staleness} : Adds n m (stale cause : AsmM α) := by
  intro a r b h
  cases h

/-- Tracker code goes to the fast stream. -/
theorem adds_lift {x : FrameM α} (h : FrameM.Adds n m x) : Adds n m (liftM x : AsmM α) := by
  intro a r b hrun
  rw [lift_run] at hrun
  split at hrun
  case h_2 => cases hrun
  case h_1 v s hx =>
    cases hrun
    obtain ⟨⟨is, hcode, hplain, hlen⟩, hwidth, hmax⟩ := h _ _ _ hx
    have hsize : s.code.size = a.buffer.fast.size + is.length := by
      rw [← Array.length_toList, hcode, List.length_append, Array.length_toList]
    refine ⟨.of_append (fun t => if t = .fast then is else []) (fun t => ?_) ?_
      (fun _ => id) rfl hmax,
      ?_, hwidth⟩
    · cases t
      · exact hcode
      · simp [CodeBuffer.stream]
    · intro t g o hmem
      split at hmem
      · cases hplain _ hmem
      · cases hmem
    · dsimp only at hlen
      simp only [Assembly.extent, hsize]
      omega

theorem adds_updateFrame {g : Frame → Frame} (hmax : ∀ f, f.maxSp ≤ (g f).maxSp)
    (hwidth : ∀ f, (g f).width ≤ f.width + n) : Adds n m (updateFrame g) := by
  intro a r b h
  cases h
  exact .of_extent (.of_same rfl rfl (fun _ => id) rfl (hmax _)) rfl (hwidth _)

theorem adds_updateSlow {g : SlowPath → SlowPath}
    (hg : ∀ a : Assembly, a.Grows { a with slow := g a.slow }) : Adds n m (updateSlow g) := by
  intro a r b h
  cases h
  exact .of_extent (hg a) rfl (Nat.le_add_right _ _)

theorem extent_emit (a : Assembly) (s : Stream) (i : Inst) (p : SlowPath) :
    (⟨a.frame, a.buffer.emit s i, p⟩ : Assembly).extent = a.extent + 1 := by
  cases s <;> simp only [Assembly.extent, CodeBuffer.emit, Array.size_push] <;> omega

theorem growsBy_emit (a : Assembly) (s : Stream) {i : Inst}
    (hi : ∀ g t, i = .branch g t → t = Inst.unlinked) :
    a.GrowsBy 1 0 { a with buffer := a.buffer.emit s i } :=
  ⟨grows_emit a s hi, by rw [spent_zero]; exact (extent_emit a s i a.slow).le, Nat.le_add_right _ _⟩

variable {s : Stream} {stub : Stub} {arg : Int64} {changes : Nat}

theorem adds_emit {i : Inst} (hi : i.target? = none) : Adds 1 0 (emit s i) := by
  intro a r b h
  cases h
  exact growsBy_emit a s fun g t hg => absurd hg (not_branch hi g t)

theorem adds_branch {g : Guard} : Adds 1 0 (branch s g) := by
  intro a r b h
  cases h
  exact growsBy_emit a s fun g t hg => by cases hg; rfl

theorem adds_link {j : Jump} {l : Label} : Adds n m (link j l) := by
  intro a r b h
  cases h
  exact .of_extent (grows_link a j _) rfl (Nat.le_add_right _ _)

theorem adds_linkExit {j : Jump} : Adds n m (linkExit j) := by
  intro a r b h
  unfold linkExit at h
  rw [bind_run] at h
  change (if a.slow.exitGeneration.any (· ≠ a.frame.generation) then _ else _ :
      AsmM Unit) a = _ at h
  split at h
  · cases h
  · cases h
    exact .of_extent (.of_same rfl rfl (fun _ => id) rfl (Nat.le_refl _)) rfl (Nat.le_add_right _ _)

theorem toList_emitAll (b : CodeBuffer) (s t : Stream) (is : List Inst) :
    ((b.emitAll s is).stream t).toList = (b.stream t).toList ++ if t = s then is else [] := by
  induction is generalizing b with
  | nil => simp [CodeBuffer.emitAll]
  | cons i is ih =>
    change (((b.emit s i).emitAll s is).stream t).toList = _
    rw [ih]
    cases s <;> cases t <;> simp [CodeBuffer.emit, CodeBuffer.stream]

theorem links_emitAll (b : CodeBuffer) (s : Stream) (is : List Inst) :
    (b.emitAll s is).links = b.links := by
  induction is generalizing b with
  | nil => rfl
  | cons i is ih =>
    change ((b.emit s i).emitAll s is).links = _
    rw [ih]
    cases s <;> rfl

/-- A pass over the slots of the frame. -/
theorem growsBy_pass {is : List Inst} (a : Assembly) (hlen : is.length ≤ 2 * a.frame.sp)
    (hplain : ∀ i ∈ is, i.target? = none) :
    a.GrowsBy 0 1 { a with buffer := a.buffer.emitAll s is } := by
  refine ⟨.of_append (fun t => if t = s then is else []) (toList_emitAll a.buffer s · is) ?_
    (fun k hk => ?_) rfl (Nat.le_refl _), ?_, Nat.le_refl _⟩
  · intro t g o hmem
    split at hmem
    · exact absurd (hplain _ hmem) nofun
    · cases hmem
  · rw [links_emitAll]
    exact hk
  · have hsize : ∀ t, ((a.buffer.emitAll s is).stream t).size =
        (a.buffer.stream t).size + if t = s then is.length else 0 := by
      intro t
      rw [← Array.length_toList, toList_emitAll, List.length_append, Array.length_toList]
      split <;> rfl
    have hfast := hsize .fast
    have hslow := hsize .slow
    simp only [CodeBuffer.stream] at hfast hslow
    have hwidth : a.frame.sp ≤ a.frame.width := Nat.le_max_left _ _
    simp only [Assembly.extent, hfast, hslow, spent]
    cases s <;> simp <;> omega

theorem adds_pass {g : Frame → List Inst} {k : Frame → AsmM β}
    (hlen : ∀ f : Frame, (g f).length ≤ 2 * f.sp) (hplain : ∀ f, ∀ i ∈ g f, i.target? = none)
    (hk : ∀ f, Adds n m (k f)) : Adds n (m + 1) (do let f ← frame; emitAll s (g f); k f) := by
  intro a r b h
  exact (growsBy_pass a (hlen _) (hplain _)).trans (hk _ _ _ _ h)

/-! ### Slow paths -/

/-- Leaving for the slow path stores the frame once. -/
theorem leave_adds : Adds 0 1 leave := by
  intro a r b h
  unfold leave at h
  rw [bind_run] at h
  change (if a.slow.exitGeneration.any (· ≠ a.frame.generation) then _ else _ :
      AsmM Label) a = _ at h
  split at h
  · cases h
  · cases h
    refine Assembly.GrowsBy.trans (n := 0) (m := 0)
      (b := ⟨a.frame, a.buffer.linkAll a.slow.exits.toList (a.buffer.label .slow),
        { a.slow with exits := #[], exitGeneration := none }⟩) (.of_extent ?_ ?_ (Nat.le_refl _))
      (growsBy_pass _ a.frame.syncCode_small.1 a.frame.syncCode_small.2)
    · rw [linkAll_eq]
      exact .of_same rfl rfl (fun _ hk => Array.mem_append_left _ hk) rfl (Nat.le_refl _)
    · exact extent_linkAll ..

theorem callStub_adds : Adds 1 0 (emitCall s fun sp => .callStub stub sp arg) := by
  intro a r b h
  cases h
  exact ⟨grows_call a s stub arg, by rw [spent_zero]; exact (extent_emit a s _ _).le,
    Nat.le_add_right _ _⟩

theorem slowCall_adds : Adds 1 1 (slowCall stub arg) :=
  leave_adds.bind fun _ => callStub_adds.bind fun _ => adds_pure

theorem complete_adds {sp : Nat} {rejoin : Option Label} :
    Adds n m (updateSlow (·.complete sp changes rejoin)) :=
  adds_updateSlow fun a => grows_complete a sp changes rejoin

theorem rejoin_adds : Adds 1 1 (rejoin changes) := by
  refine (adds_query (n := 0) (m := 0) fun _ => rfl).next fun waiting => ?_
  dsimp only
  split
  · exact adds_stale
  · refine (adds_query (n := 0) (m := 0) fun _ => rfl).next fun target => ?_
    exact adds_pass (fun f => f.mergeCode_small.1) (fun f => f.mergeCode_small.2) fun f =>
      adds_branch.bind fun _ => adds_link.next fun _ => complete_adds

theorem rejoinInline_adds : Adds 0 0 (rejoinInline changes) :=
  (adds_query fun _ => rfl).next fun _ => (adds_query fun _ => rfl).next fun _ => complete_adds

theorem endOp_adds : Adds 0 0 endOp := by
  refine (adds_query (n := 0) (m := 0) fun _ => rfl).next fun waiting => ?_
  dsimp only
  split
  · exact adds_stale
  · refine (adds_query (n := 0) (m := 0) fun _ => rfl).next fun a => ?_
    split
    · exact adds_throw
    · exact adds_pure

end AsmM

/-! ### The compiler -/

/-- Code has been added, and nothing else has changed that lasts. -/
structure Compilation.GrowsBy (n m : Nat) (s s' : Compilation) : Prop where
  caches : s'.caches = s.caches
  labels : s'.labels = s.labels
  asm : s.asm.GrowsBy n m s'.asm

theorem Compilation.GrowsBy.trans {n m n' m' : Nat} {s s' s'' : Compilation} (h : s.GrowsBy n m s')
    (h' : s'.GrowsBy n' m' s'') : s.GrowsBy (n' + n) (m' + m) s'' :=
  ⟨h'.caches.trans h.caches, h'.labels.trans h.labels, h.asm.trans h'.asm⟩

namespace CompileM

variable {α β : Type} {c : Context} {n m n₁ m₁ : Nat} {x : CompileM α} {k : α → CompileM β}

/-- The emitter adds at most `n` instructions and `m` passes over the slots. -/
def Adds (c : Context) (n m : Nat) (x : CompileM α) : Prop :=
  ∀ s r s', x c s = .ok r s' → s.GrowsBy n m s'

theorem adds_pure {r : α} : Adds c n m (pure r) := by
  intro s _ _ h
  cases h
  exact ⟨rfl, rfl, .refl s.asm⟩

/-- One emitter after the other. -/
theorem Adds.bind (h : Adds c n₁ m₁ x) (hk : ∀ r, Adds c n m (k r)) :
    Adds c (n + n₁) (m + m₁) (x >>= k) := by
  intro s r s' hrun
  rw [bind_run] at hrun
  split at hrun
  case h_2 => cases hrun
  case h_1 r₁ s₁ hx => exact (h s r₁ s₁ hx).trans (hk r₁ s₁ r s' hrun)

theorem Adds.mono (h : Adds c n₁ m₁ x) (hn : n₁ ≤ n) (hm : m₁ ≤ m) : Adds c n m x := by
  intro s r s' hrun
  obtain ⟨hcaches, hlabels, hasm⟩ := h s r s' hrun
  exact ⟨hcaches, hlabels, hasm.mono hn hm⟩

theorem Adds.next (h : Adds c 0 0 x) (hk : ∀ r, Adds c n m (k r)) :
    Adds c n m (x >>= k) := h.bind hk

theorem adds_read {k : Context → CompileM β} (h : Adds c n m (k c)) : Adds c n m (read >>= k) := h

theorem adds_throw {e : CompileError} : Adds c n m (throw e : CompileM α) := by
  intro s r s' h
  cases h

theorem adds_fail {v : Violation} : Adds c n m (fail v : CompileM α) := by
  intro s r s' h
  cases h

/-- Tracker code goes to the fast stream. -/
theorem adds_lift {x : AsmM α} (h : AsmM.Adds n m x) : Adds c n m (liftM x) := by
  intro s r s' hrun
  rw [lift_run] at hrun
  split at hrun
  · next v a hx =>
    cases hrun
    exact ⟨rfl, rfl, h _ _ _ hx⟩
  · cases hrun

theorem adds_track {x : FrameM α} (h : FrameM.Adds n m x) : Adds c n m (liftM x) :=
  adds_lift (AsmM.adds_lift h)

/-- Looking at the frame. -/
theorem adds_frame {k : Frame → CompileM β} (h : ∀ f, Adds c n m (k f)) :
    Adds c n m (liftM AsmM.frame >>= k) :=
  (adds_lift (AsmM.adds_query fun _ => rfl)).next h

theorem advance_adds {next : Lifecycle} : Adds c 0 0 (advance next) := by
  intro s r s' hrun
  by_cases hcan : s.lifecycle.canAdvance next
  · rw [advance_run hcan] at hrun
    cases hrun
    exact ⟨rfl, rfl, .refl s.asm⟩
  · have hget : (getThe Compilation : CompileM Compilation) c s = .ok s s := rfl
    simp only [advance, bind_run, hget, hcan] at hrun
    cases hrun

theorem finishStep_adds {emitted : Emitted} : Adds c 0 0 (finishStep emitted) := by
  refine advance_adds.next fun _ => (adds_lift (AsmM.adds_query fun _ => rfl)).next
    fun waiting => ?_
  dsimp only
  split
  · exact adds_read adds_throw
  · exact advance_adds.next fun _ => (adds_lift AsmM.endOp_adds).next fun _ => advance_adds

end CompileM

namespace Frame

theorem width_pop (f : Frame) : f.pop.width ≤ f.width := by
  simp only [width, pop]
  exact max_le_max (Nat.sub_le _ _) (Nat.le_refl _)

theorem width_popN (n : Nat) (f : Frame) : (popN n f).width ≤ f.width := by
  induction n generalizing f with
  | zero => exact Nat.le_refl _
  | succ n ih => exact Nat.le_trans (ih f.pop) f.width_pop

theorem width_push (f : Frame) (e : Entry) : (f.push e).width ≤ f.width + 1 := by
  simp only [width, push]
  omega

theorem width_pushCopy (f : Frame) (s : Slot) : (f.pushCopy s).width ≤ f.width + 1 := by
  unfold pushCopy
  split <;> exact width_push _ _

end Frame

namespace CompileM

variable {c : Context} {n m : Nat}

/-! ### Stub calls and results -/

variable {stub : Stub} {types : TypeSet} {res : IntResult} {r : Reg} {slot : Slot} {plan : IntPlan}
  {o : Operand} {op : BitOp} {slow : Bool} {l : Bytecode.Literal}

theorem stubTypes_adds : Adds c 0 0 (stubTypes stub) := by
  refine (adds_read adds_pure : Adds c 0 0 pushedTypes).next fun pushed => ?_
  split
  · exact adds_pure
  · exact adds_pure
  · exact adds_pure
  · exact adds_pure
  · dsimp only
    split <;> exact adds_pure

theorem popN_adds {k : Nat} : AsmM.Adds n m (AsmM.updateFrame (popN k)) :=
  AsmM.adds_updateFrame (fun f => (continues_popN k f).maxSp) fun f =>
    Nat.le_trans (width_popN k f) (Nat.le_add_right _ _)

theorem pop_adds : AsmM.Adds n m (AsmM.updateFrame pop) :=
  AsmM.adds_updateFrame (fun _ => Nat.le_refl _) fun f =>
    Nat.le_trans f.width_pop (Nat.le_add_right _ _)

theorem pushSynced_adds : AsmM.Adds 1 0 (AsmM.updateFrame (·.pushSynced types)) :=
  AsmM.adds_updateFrame (fun _ => Nat.le_max_left _ _) fun f => f.width_push _

theorem emitStub_adds {arg : Int64} : Adds c 2 1 (emitStub stub arg) := by
  refine stubTypes_adds.next fun types => ?_
  refine (adds_track FrameM.syncAndKill_adds).bind fun _ => (adds_lift AsmM.callStub_adds).bind
    fun _ => (adds_lift popN_adds).next fun _ => ?_
  dsimp only
  split
  · exact (adds_lift AsmM.rejoinInline_adds).next fun _ => adds_pure
  · exact (adds_lift pushSynced_adds).bind fun _ => (adds_lift AsmM.rejoinInline_adds).next
      fun _ => adds_pure

theorem replaceByConstant_adds {k : Nat} {v : Value} : AsmM.Adds 1 0 (replaceByConstant k v) :=
  AsmM.adds_updateFrame
    (fun f => Nat.le_trans (continues_popN k f).maxSp (Nat.le_max_left _ _))
    fun f => Nat.le_trans (width_push _ _) (Nat.add_le_add_right (width_popN k f) 1)

theorem pushInt_adds : FrameM.Adds 1 0 (pushInt res types) := by
  unfold pushInt
  split
  · exact FrameM.free_adds.next fun _ => FrameM.pushDouble_adds.bind fun _ => FrameM.adds_pure
  · exact FrameM.pushRegs_adds.bind fun _ => FrameM.adds_pure
  · exact FrameM.pushTyped_adds.bind fun _ => FrameM.adds_pure

theorem pin_adds : FrameM.Adds 0 0 (pin r) := by
  refine FrameM.pin_adds.next fun newly => ?_
  split <;> exact FrameM.adds_pure

theorem unpinAll_adds {pins : List Reg} : FrameM.Adds 0 0 (unpinAll pins) := by
  induction pins with
  | nil => exact FrameM.adds_pure
  | cons r pins ih => exact FrameM.adds_updateRegs.next fun _ => ih

/-! ### Bitwise operators -/

theorem planConversion_adds : FrameM.Adds 7 0 (planConversion slot) := by
  refine FrameM.adds_frame fun f => ?_
  split
  · exact FrameM.copyNumber_adds.bind fun _ => FrameM.alloc_adds.bind fun _ => FrameM.adds_pure
  · exact FrameM.dataReg_adds.bind fun _ => pin_adds.next fun _ => FrameM.alloc_adds.bind fun _ =>
      FrameM.adds_pure

theorem planOwned_adds : FrameM.Adds 7 0 (planOwned slot) := by
  refine FrameM.adds_frame fun f => ?_
  split
  · exact FrameM.loadTemp_adds.bind fun _ => FrameM.adds_pure
  · exact FrameM.copyData_adds.bind fun _ => FrameM.adds_pure
  · exact planConversion_adds

theorem planRead_adds : FrameM.Adds 7 0 (planRead slot) := by
  refine FrameM.adds_frame fun f => ?_
  split
  · exact FrameM.adds_pure
  · exact FrameM.dataReg_adds.bind fun _ => pin_adds.next fun _ => FrameM.adds_pure
  · exact planConversion_adds.bind fun _ => FrameM.adds_pure

theorem planRight_adds {shared : Bool} : FrameM.Adds 7 0 (planRight shared r slot) := by
  unfold planRight
  split
  · exact FrameM.adds_pure
  · exact planRead_adds

theorem moveTowardsZero_adds {r : FReg} : AsmM.Adds 6 0 (moveTowardsZero r) :=
  (AsmM.adds_emit rfl).bind fun _ => AsmM.adds_branch.bind fun _ => (AsmM.adds_emit rfl).bind
    fun _ => AsmM.adds_branch.bind fun _ => (AsmM.adds_query fun _ => rfl).next fun _ =>
    AsmM.adds_link.next fun _ => (AsmM.adds_emit rfl).bind fun _ =>
    (AsmM.adds_query fun _ => rfl).next fun _ => AsmM.adds_link.next fun _ => AsmM.adds_emit rfl

theorem retryTruncation_adds {j : Jump} {x : FReg} {l : Label} :
    AsmM.Adds 8 0 (retryTruncation j x r l) :=
  (AsmM.adds_query fun _ => rfl).next fun _ => AsmM.adds_link.next fun _ =>
    moveTowardsZero_adds.bind fun _ => AsmM.adds_branch.bind fun _ => AsmM.adds_branch.bind fun _ =>
    AsmM.adds_linkExit.next fun _ => AsmM.adds_link

/-- A conversion has at most nine instructions. -/
theorem applyPlan_adds : AsmM.Adds 9 0 (applyPlan plan r) := by
  cases plan with
  | ready => exact AsmM.adds_pure
  | truncate x =>
    exact AsmM.adds_branch.bind fun _ => (AsmM.adds_query fun _ => rfl).next fun _ =>
      retryTruncation_adds
  | tagged slot payload =>
    exact (AsmM.adds_lift FrameM.tagOperand_adds).next fun _ => AsmM.adds_branch.bind fun _ =>
      (AsmM.adds_emit rfl).bind fun _ => (AsmM.adds_query fun _ => rfl).next fun _ =>
      (AsmM.adds_query fun _ => rfl).next fun _ => AsmM.adds_link.next fun _ =>
      AsmM.adds_branch.bind fun _ => (AsmM.adds_emit rfl).bind fun _ =>
      AsmM.adds_branch.bind fun _ => AsmM.adds_branch.bind fun _ =>
        AsmM.adds_linkExit.next fun _ =>
      AsmM.adds_linkExit.next fun _ => AsmM.adds_link

theorem freePlan_adds : FrameM.Adds 0 0 (freePlan plan) := by
  cases plan with
  | truncate x => exact FrameM.freeDouble_adds
  | ready | tagged slot payload => exact FrameM.adds_pure

theorem releaseRead_adds : Adds c 0 0 (releaseRead o plan) := by
  refine (adds_track freePlan_adds).next fun _ => ?_
  split
  · exact adds_pure
  · exact adds_track FrameM.free_adds
  · exact adds_fail

theorem applyRead_adds : AsmM.Adds 9 0 (applyRead o plan) := by
  unfold applyRead
  split
  · exact applyPlan_adds
  · exact AsmM.adds_pure

theorem bitResult_adds {isWide : Bool} : FrameM.Adds 1 0 (bitResult r isWide) := by
  unfold bitResult
  split
  · exact FrameM.allocDouble_adds.bind fun _ => FrameM.adds_pure
  · exact FrameM.adds_pure

theorem fitUnsigned_adds : AsmM.Adds 1 0 (fitUnsigned res) := by
  unfold fitUnsigned
  split
  · exact AsmM.adds_emit rfl
  · exact AsmM.adds_branch.bind fun _ => AsmM.adds_linkExit

theorem emitBitOp_adds : AsmM.Adds 1 0 (emitBitOp op r o) := by
  unfold emitBitOp
  split
  · exact AsmM.adds_pure
  · exact AsmM.adds_emit rfl

/-- The end of an operation that may have a slow path. -/
theorem rejoin?_adds {v : Emitted} : Adds c 1 1 (do
    if slow then AsmM.rejoin 1
    return v) := by
  cases slow
  · exact adds_pure
  · exact (adds_lift AsmM.rejoin_adds).bind fun _ => adds_pure

theorem slowCall?_adds {k : CompileM Emitted} (hk : Adds c n m k) :
    Adds c (n + 1) (m + 1) (do
      if slow then AsmM.slowCall stub 0
      k) := by
  cases slow
  · exact hk.mono (Nat.le_succ n) (Nat.le_succ m)
  · exact (adds_lift AsmM.slowCall_adds).bind fun _ => hk

/-- The inline code of a bitwise operator. -/
theorem bitOpInline_adds {a b : Slot} {shift : Option Int32} :
    Adds c 38 2 (bitOpInline op a b shift) := by
  unfold bitOpInline
  refine adds_frame fun f => (adds_read adds_pure : Adds c 0 0 pushedTypes).next fun types => ?_
  dsimp only
  refine (adds_track planOwned_adds).bind fun lhs => (adds_track planRight_adds).bind fun rhs =>
    (adds_track bitResult_adds).bind fun res => (adds_lift applyPlan_adds).bind fun _ =>
    (adds_lift applyRead_adds).bind fun _ => (adds_lift emitBitOp_adds).bind fun _ => ?_
  have hrest : Adds c 3 2 (do
      let slow ← AsmM.hasExits
      if slow then AsmM.slowCall (.bit op) 0
      releaseRead rhs.1 rhs.2.1
      freePlan lhs.2.1
      unpinAll (lhs.2.2 ++ rhs.2.2)
      AsmM.updateFrame (popN 2)
      pushInt res types
      if slow then AsmM.rejoin 1
      return Emitted.inline) :=
    (adds_lift (AsmM.adds_query fun _ => rfl)).next fun slow => slowCall?_adds <|
      releaseRead_adds.next fun _ => (adds_track freePlan_adds).next fun _ =>
      (adds_track unpinAll_adds).next fun _ => (adds_lift popN_adds).next fun _ =>
      (adds_track pushInt_adds).bind fun _ => rejoin?_adds
  split
  · exact (adds_lift fitUnsigned_adds).bind fun _ => hrest
  · exact hrest.mono (by decide) (by decide)

theorem bitOp_adds : Adds c 38 2 (bitOp op) := by
  refine adds_frame fun f => ?_
  dsimp only
  split
  · exact ((adds_lift replaceByConstant_adds).bind fun _ => adds_pure (n := 0) (m := 0)).mono
      (by decide) (by decide)
  · split
    · exact emitStub_adds.mono (by decide) (by decide)
    · split
      · exact emitStub_adds.mono (by decide) (by decide)
      · split <;> exact bitOpInline_adds

/-- The complement. -/
theorem bitNot_adds : Adds c 38 2 bitNot := by
  refine adds_frame fun f => ?_
  dsimp only
  split
  · exact ((adds_lift replaceByConstant_adds).bind fun _ => adds_pure (n := 0) (m := 0)).mono
      (by decide) (by decide)
  · split
    · exact emitStub_adds.mono (by decide) (by decide)
    · refine (adds_track planOwned_adds).bind fun r => (adds_lift applyPlan_adds).bind fun _ =>
        (adds_lift (AsmM.adds_emit rfl)).bind fun _ =>
        (adds_lift (AsmM.adds_query fun _ => rfl)).next fun slow => slowCall?_adds <|
        (adds_track freePlan_adds).next fun _ => (adds_track unpinAll_adds).next fun _ =>
        (adds_lift pop_adds).next fun _ =>
        (adds_track FrameM.pushTyped_adds).bind fun _ => rejoin?_adds.mono (by decide) (by decide)

/-! ### Instructions -/

theorem ret_adds : Adds c 7 0 ret :=
  adds_frame fun _ => (adds_track FrameM.source_adds).bind fun _ =>
    (adds_lift (AsmM.adds_emit rfl)).bind fun _ =>
      (adds_track FrameM.unpinSource_adds).next fun _ =>
    (adds_lift pop_adds).next fun _ => adds_pure

theorem literalValue_adds : Adds c 0 0 (literalValue l) := by
  cases l with
  | double i =>
    refine adds_read ?_
    split
    · exact adds_pure
    · exact adds_fail
  | string i =>
    refine adds_read ?_
    split
    · exact adds_fail
    · split
      · exact adds_pure
      · exact adds_throw
  | _ => exact adds_pure

theorem single_adds {x : CompileM Emitted} (h : Adds c n m x) : Adds c n m (single x) := by
  rw [← Nat.zero_add n, ← Nat.zero_add m]
  exact h.bind fun _ => adds_pure

theorem literal_adds : Adds c 1 0 (emitInline (.push l)) := by
  refine single_adds (literalValue_adds.next fun v => ?_)
  have hpush : AsmM.Adds 1 0 (AsmM.updateFrame (·.pushConstant v)) :=
    AsmM.adds_updateFrame (fun _ => Nat.le_max_left _ _) fun f => f.width_push _
  exact (adds_lift hpush).bind fun _ => adds_pure

theorem get_adds {x : Bytecode.Var} : Adds c 1 0 (emitInline (.get x)) := by
  have hpush : FrameM.Adds 1 0 (FrameM.update (·.pushVar x)) :=
    FrameM.adds_widen (fun f => (f.maxSp_pushCopy _).ge.trans' (Nat.le_max_left _ _))
      fun f => f.width_pushCopy _
  exact (adds_track hpush).bind fun _ => adds_pure

/-- Inline code is emitted unless only stubs are to be called. -/
theorem emit_adds {i : Bytecode.Instr} (hc : c.config.genericOnly = false)
    (h : Adds c n m (emitInline i)) : Adds c n m (emit i) := by
  refine adds_read ?_
  rw [hc]
  exact h

end CompileM

end FastPath
