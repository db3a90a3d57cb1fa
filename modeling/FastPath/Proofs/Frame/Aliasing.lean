import FastPath.Proofs.Frame.Upkeep

/-!
# Who holds which register

However the tracker is called, and whether its calls succeed or fail, entries and register
file tell the same story: a register holds part of a slot if and only if the entry of the slot
says so, so no register serves two slots, and a copy refers to a lower slot that owns its
value. What a failed call did before it stopped stays done, and is part of the history.

The only condition on the calls is that slots are below the stack pointer and pops stay within
the operand stack. In particular types may be learned that contradict each other.
-/

namespace FastPath

open FrameM Frame

namespace Operation

variable {f : Frame}

/-- The slots that the operation names exist, and what it pops is on the operand stack. -/
def InRange (op : Operation) (f : Frame) : Prop :=
  match op with
  | pushRegs tag payload _ => tag ≠ payload
  | take r => r.index < Reg.count
  | pushVar v => f.varSlot v < f.sp
  | dup => 0 < f.sp
  | pop => f.stackBase < f.sp
  | popN n => f.stackBase + n ≤ f.sp
  | pushCopy s | dataReg s | tagReg s | doubleReg s | copyData s | copyTag s | copyNumber s
  | source s | uncopy s | syncEntry s | learnType s _ => s < f.sp
  | separate lhs rhs => lhs < f.sp ∧ rhs < f.sp
  | store t s => t < f.sp ∧ s < f.sp
  | storeVar v popped => f.varSlot v < f.sp ∧ (popped → f.stackBase < f.sp)
  | shimmy n => n < f.sp ∧ f.stackBase + n ≤ f.sp
  | swap => 1 < f.sp
  | _ => True

/-- A valid operation that succeeds leaves a coherent frame. -/
theorem coherent_of_ok (op : Operation) (h : f.Coherent) (hvalid : op.Valid f) {a : Answer}
    {code : Array Inst} {s : Emission} (hrun : op.run ⟨f, code⟩ = .ok a s) : s.frame.Coherent := by
  obtain ⟨m, ⟨env, ht⟩, hfits, htrue⟩ := op.exists_machine h.sound hvalid hrun
  obtain ⟨is, m', -, -, ho⟩ := op.run_ensures (ht.consistent.tracks h.sound)
    (by simp [values])
    h.base hvalid hfits htrue code a s hrun
  refine ⟨ho.tracks.sound, ?_⟩
  rw [ho.continues.stackBase]
  exact ho.base

/-- What every operation leaves behind: a coherent frame, and every payload that was there. -/
def Keeps (op : Operation) (f : Frame) : Prop :=
  Leaves op.run f fun _ f' => f'.Coherent ∧ (f.Backed none → f'.Backed none)

variable {op : Operation} {α : Type} {x : FrameM α} {k : α → Answer}

theorem keeps_of_valid (h : f.Coherent) (hvalid : op.Valid f)
    (hx : Leaves op.run f fun _ f' => f.Backed none → f'.Backed none) : op.Keeps f := by
  intro code
  have hx := hx code
  split at hx
  · next a s hrun => exact ⟨op.coherent_of_ok h hvalid hrun, hx⟩
  · exact hx

/-- The answer of an operation does not matter to what it leaves. -/
theorem leaves_answer {P : Frame → Prop} (hx : Leaves x f fun _ f' => P f') :
    Leaves (do return k (← x)) f fun _ f' => P f' :=
  leaves_bind (hx.mono fun _ _ hp => leaves_pure hp)

theorem leaves_push {P : Frame → Prop} {g : Frame → Frame} (h : P (g f)) :
    Leaves (run.push g) f fun _ f' => P f' :=
  leaves_look (leaves_answer (leaves_update h))

theorem keeps_of_passes (hrun : op.run = do return k (← x))
    (hx : Leaves x f fun _ f' => f.Passes f') : op.Keeps f := by
  unfold Keeps
  rw [hrun]
  exact leaves_answer (hx.mono fun _ _ hp => ⟨hp.coherent, hp.upholds none⟩)

/-- Every operation leaves a coherent frame, on both ways out. -/
theorem run_keeps (op : Operation) (h : f.Coherent) (hr : op.InRange f) : op.Keeps f := by
  have hsp := h.sound.sp_le
  cases op with
  | pushConstant v =>
    exact keeps_of_valid h hr (leaves_push fun hb => hb.push hsp nofun)
  | pushTyped t r => exact keeps_of_valid h hr (leaves_answer (pushTyped_leaves h t r))
  | pushDouble r => exact keeps_of_valid h hr (leaves_answer (pushDouble_leaves h r))
  | pushRegs tag payload types =>
    exact keeps_of_valid h hr (leaves_answer (pushRegs_leaves h tag payload types))
  | pushSynced types =>
    exact keeps_of_valid h hr (leaves_push fun hb => hb.push hsp fun _ _ => rfl)
  | pushCopy s | pushVar s | dup =>
    exact keeps_of_valid h hr (leaves_push fun hb => hb.pushCopy hsp _)
  | pop => exact keeps_of_valid h hr (leaves_answer (leaves_update fun hb => hb.pop))
  | popN n => exact keeps_of_valid h hr (leaves_answer (leaves_update fun hb => hb.popN n))
  | alloc => exact keeps_of_passes rfl (alloc_leaves h)
  | allocDouble => exact keeps_of_passes rfl (allocDouble_leaves h)
  | take r =>
    exact keeps_of_valid h hr
      (leaves_answer ((take_leaves h r).mono fun _ _ hu => hu none))
  | free r =>
    exact leaves_answer ((free_leaves h r).mono fun _ _ hu => ⟨hu.1, hu.2 none⟩)
  | freeDouble r =>
    exact keeps_of_valid h hr
      (leaves_answer ((freeDouble_leaves h r).mono fun _ _ hu => hu none))
  | dataReg s => exact keeps_of_passes rfl (dataReg_leaves h hr)
  | tagReg s => exact keeps_of_passes rfl (tagReg_leaves h hr)
  | doubleReg s => exact keeps_of_passes rfl (doubleReg_leaves h hr)
  | copyData s => exact keeps_of_passes rfl (copyData_leaves h s)
  | copyTag s => exact keeps_of_passes rfl (copyTag_leaves h s)
  | copyNumber s => exact keeps_of_passes rfl (copyNumber_leaves h hr)
  | source s => exact keeps_of_passes rfl (source_leaves h hr)
  | unpinSource src => exact keeps_of_passes rfl (unpinSource_leaves h src)
  | uncopy s =>
    exact leaves_answer
      ((uncopy_leaves h s).mono fun _ _ hu => ⟨hu.coherent, hu.upholds none⟩)
  | separate lhs rhs =>
    exact keeps_of_valid h hr
      (leaves_answer ((separate_leaves h lhs hr.2).mono fun _ _ hu => hu none))
  | store t s =>
    exact leaves_answer
      ((store_leaves h hr.2).mono fun _ _ ha => ⟨ha.coherent, ha.backed⟩)
  | storeVar v popped =>
    have hpos : 0 < f.sp := Nat.lt_of_le_of_lt (Nat.zero_le _) hr.1
    exact leaves_answer (storeVar_leaves h hpos v popped hr.2)
  | shimmy n =>
    have hpos : 0 < f.sp := Nat.lt_of_le_of_lt (Nat.zero_le _) hr.1
    exact leaves_answer (shimmy_leaves h hpos hr.2)
  | swap => exact leaves_answer (swap_leaves h hr)
  | syncEntry s => exact keeps_of_passes rfl (syncEntry_leaves h hr)
  | syncAll => exact keeps_of_passes rfl (syncAll_leaves h)
  | syncAndKill =>
    exact keeps_of_valid h hr
      (leaves_answer ((syncAndKill_leaves h).mono fun _ _ hb _ => hb none))
  | learnType s t =>
    exact leaves_answer ((learnType_leaves h hr t).mono fun _ _ hu => ⟨hu.1, hu.2 none⟩)

end Operation

/-! ### Histories -/

/-- A call of the tracker: one of its operations, or one that the code generator makes
between operations. -/
inductive Call where
  | operation (op : Operation)
  | pin (r : Reg)
  | unpin (r : Reg)
  | tagOperand (s : Slot)
  | setTypes (s : Slot) (types : TypeSet)
  | setInitTarget (s : Slot) (init : Option InitTarget)
  | setPc (pc : Nat)
  | syncAndForget
  | reset (depth : Nat)
  /-- Emit the code that stores every slot, for a slow path. -/
  | syncCode
  /-- Emit the code that loads every register, at the end of a slow path. -/
  | mergeCode
  | check
deriving DecidableEq

namespace Call

/-- The call. -/
def run : Call → FrameM Unit
  | operation op => do let _ ← op.run
  | pin r => do let _ ← FrameM.pin r
  | unpin r => FrameM.unpin r
  | tagOperand s => do let _ ← FrameM.tagOperand s
  | setTypes s types => FrameM.update (·.setTypes s types)
  | setInitTarget s init => FrameM.update (·.setInitTarget s init)
  | setPc pc => FrameM.update ({ · with pc })
  | syncAndForget => FrameM.syncAndForget
  | reset depth => FrameM.update (·.reset depth)
  | syncCode => do FrameM.emitAll (← FrameM.frame).syncCode
  | mergeCode => do FrameM.emitAll (← FrameM.frame).mergeCode
  | check => FrameM.check

/-- The slots that the call names exist, and what it pops is on the operand stack. -/
def InRange (c : Call) (f : Frame) : Prop :=
  match c with
  | operation op => op.InRange f
  | tagOperand s | setTypes s _ | setInitTarget s _ => s < f.sp
  | _ => True

/-- Every call leaves a coherent frame, on both ways out. -/
theorem run_keeps (c : Call) {f : Frame} (h : f.Coherent) (hr : c.InRange f) :
    FrameM.Leaves c.run f fun _ f' => f'.Coherent ∧ (f.Backed none → f'.Backed none) := by
  have hp := Passes.refl h
  have hpass : ∀ {α : Type} {x : FrameM α}, FrameM.Leaves x f (fun _ f' => f.Passes f') →
      FrameM.Leaves x f fun _ f' => f'.Coherent ∧ (f.Backed none → f'.Backed none) :=
    fun hx => hx.mono fun _ _ hp => ⟨hp.coherent, hp.upholds none⟩
  cases c with
  | operation op =>
    exact FrameM.leaves_bind ((op.run_keeps h hr).mono fun _ _ hk => FrameM.leaves_pure hk)
  | pin r =>
    refine hpass (FrameM.leaves_bind (FrameM.leaves_bind (FrameM.leaves_frame ?_)))
    exact FrameM.leaves_bind (FrameM.leaves_updateRegs
      (FrameM.leaves_pure (FrameM.leaves_pure (hp.pin r true))))
  | unpin r => exact hpass (FrameM.leaves_updateRegs (hp.pin r false))
  | tagOperand s =>
    refine hpass (FrameM.leaves_bind (FrameM.leaves_bind (FrameM.leaves_frame ?_)))
    dsimp only
    split
    · split
      · exact FrameM.leaves_pure (FrameM.leaves_pure hp)
      · exact FrameM.leaves_pure (FrameM.leaves_pure hp)
    · exact FrameM.leaves_bind (FrameM.leaves_fail h)
  | setTypes s types =>
    rw [run]
    apply FrameM.leaves_update
    refine ⟨⟨h.sound.of_notes _ fun e => ⟨types, e.init, rfl⟩, h.base⟩, ?_⟩
    exact upholds_update (g := fun e => { e with types }) _ (fun _ he => he) none
  | setInitTarget s init =>
    rw [run]
    apply FrameM.leaves_update
    refine ⟨⟨h.sound.of_notes _ fun e => ⟨e.types, init, rfl⟩, h.base⟩, ?_⟩
    exact upholds_update (g := fun e => { e with init }) _ (fun _ he => he) none
  | setPc pc =>
    rw [run]
    apply FrameM.leaves_update
    refine ⟨⟨?_, h.base⟩, fun hb => hb⟩
    exact h.sound.congr rfl rfl rfl (fun _ => rfl) (fun _ => rfl) (fun _ => rfl) fun _ => rfl
  | syncAndForget =>
    exact (FrameM.syncAndForget_leaves h).mono fun _ _ hq => ⟨hq.1, fun _ => hq.2 none⟩
  | reset depth =>
    obtain ⟨hc, hb⟩ := h.reset depth
    rw [run]
    apply FrameM.leaves_update
    exact ⟨hc, fun _ => hb none⟩
  | syncCode | mergeCode =>
    exact hpass (FrameM.leaves_bind (FrameM.leaves_frame (FrameM.leaves_emitAll hp)))
  | check =>
    refine hpass (FrameM.leaves_bind (FrameM.leaves_frame ?_))
    split
    · exact FrameM.leaves_fail h
    · exact FrameM.leaves_pure hp

end Call

/-- Whether the call succeeds, and the frame that it leaves. -/
def Call.outcome (c : Call) (f : Frame) : Bool × Frame :=
  match c.run ⟨f, #[]⟩ with
  | .ok _ s => (true, s.frame)
  | .error _ s => (false, s.frame)

/-- The entry has part of its value in the register. -/
def Entry.Uses (e : Entry) (r : Reg) : Prop := e.data = .reg r ∨ e.tag = some r

namespace Frame

/-- The frames that a history of calls leads to, starting at function entry. The flag tells
whether every call so far has succeeded; a call that fails is followed by others like any
other. -/
inductive Visited : Bool → Frame → Prop
  | new (argCount localCount : Nat) (baseTypes : Array TypeSet) (maxDepth : Nat) :
      Visited true (.new argCount localCount baseTypes maxDepth)
  | ok {clean : Bool} {f f' : Frame} {c : Call} {code code' : Array Inst} :
      Visited clean f → c.InRange f → c.run ⟨f, code⟩ = .ok () ⟨f', code'⟩ → Visited clean f'
  | error {clean : Bool} {f f' : Frame} {c : Call} {e : CompileError} {code code' : Array Inst} :
      Visited clean f → c.InRange f → c.run ⟨f, code⟩ = .error e ⟨f', code'⟩ → Visited false f'

variable {clean : Bool} {f : Frame}

/-- A history may go on with any call. -/
theorem Visited.call (h : Visited clean f) (c : Call) (hr : c.InRange f) :
    Visited (clean && (c.outcome f).1) (c.outcome f).2 := by
  unfold Call.outcome
  split
  · next s hrun =>
    rw [Bool.and_true]
    exact h.ok hr hrun
  · next e s hrun =>
    rw [Bool.and_false]
    exact h.error hr hrun

/-- Entries and register file tell the same story about who holds what. -/
structure Orderly (f : Frame) : Prop where
  /-- A register holds a payload if and only if the entry of a live slot has it there. -/
  data : ∀ s r, f.regs.binding r = .data s ↔ s < f.sp ∧ (f.entry s).data = .reg r
  tag : ∀ s r, f.regs.binding r = .tag s ↔ s < f.sp ∧ (f.entry s).tag = some r
  double : ∀ s r, f.regs.fbinding r = .data s ↔ s < f.sp ∧ (f.entry s).data = .freg r
  /-- No double register holds a tag. -/
  doubleTag : ∀ s r, f.regs.fbinding r ≠ .tag s
  /-- No register serves two slots, nor both parts of one. -/
  exclusive : ∀ s s' r, s < f.sp → s' < f.sp → (f.entry s).Uses r → (f.entry s').Uses r →
    s = s' ∧ ¬((f.entry s).data = .reg r ∧ (f.entry s).tag = some r)
  doubleExclusive : ∀ s s' r, s < f.sp → s' < f.sp → (f.entry s).data = .freg r →
    (f.entry s').data = .freg r → s = s'
  /-- A copy has no registers and refers to a lower slot that owns its value. -/
  copy : ∀ s b, s < f.sp → (f.entry s).role = .copyOf b →
    b < s ∧ (f.entry b).role = .own ∧ (f.entry s).data = .memory ∧ (f.entry s).tag = none

/-- A coherent frame has its copies in order. -/
theorem Orderly.of_coherent (h : f.Coherent) : f.Orderly := by
  have hlive : ∀ s, f.Live none s ↔ s < f.sp := by simp [Live]
  have hdata := h.sound.data_iff
  have htag := h.sound.tag_iff
  have hdouble := h.sound.fdata_iff
  simp only [hlive] at hdata htag hdouble
  -- the entries of both slots have to agree with the one binding of the register
  have huses : ∀ s r, s < f.sp → (f.entry s).Uses r →
      f.regs.binding r = .data s ∨ f.regs.binding r = .tag s := by
    rintro s r hs (hd | ht)
    · exact .inl ((hdata s r).2 ⟨hs, hd⟩)
    · exact .inr ((htag s r).2 ⟨hs, ht⟩)
  refine ⟨hdata, htag, hdouble, h.sound.ftag, ?_, ?_, ?_⟩
  · intro s s' r hs hs' hu hu'
    refine ⟨?_, ?_⟩
    · rcases huses s r hs hu with hb | hb <;> rcases huses s' r hs' hu' with hb' | hb' <;>
        rw [hb] at hb' <;> cases hb' <;> rfl
    · rintro ⟨hd, ht⟩
      have hb := (hdata s r).2 ⟨hs, hd⟩
      rw [(htag s r).2 ⟨hs, ht⟩] at hb
      cases hb
  · intro s s' r hs hs' hd hd'
    have hb := (hdouble s r).2 ⟨hs, hd⟩
    rw [(hdouble s' r).2 ⟨hs', hd'⟩] at hb
    cases hb
    rfl
  · intro s b hs hrole
    have hl := (hlive s).2 hs
    obtain ⟨hlt, -, hown⟩ := h.sound.copy s b hl hrole
    exact ⟨hlt, hown, h.sound.bare s hl (by simp [hrole])⟩

/-- Every call keeps the frame coherent; as long as all succeed, no payload is lost. -/
theorem Visited.coherent (h : Visited clean f) : f.Coherent ∧ (clean = true → f.Backed none) := by
  induction h with
  | new argCount localCount baseTypes maxDepth =>
    refine ⟨⟨sound_new .., Nat.le_refl _⟩, fun _ => ?_⟩
    exact backed_of_inMemory _ fun _ hs => entry_new argCount localCount baseTypes maxDepth hs
  | @ok clean f f' c code code' _ hr hrun ih =>
    have hk := c.run_keeps ih.1 hr code
    rw [hrun] at hk
    exact ⟨hk.1, fun hc => hk.2 (ih.2 hc)⟩
  | @error clean f f' c e code code' _ hr hrun ih =>
    have hk := c.run_keeps ih.1 hr code
    rw [hrun] at hk
    exact ⟨hk, nofun⟩

/-- After any history of calls, whether they succeeded or failed, entries and register file
agree, no register serves two slots, and copies refer to lower slots that own their value. As
long as every call has succeeded, a value that a slot owns and has in memory is there. So the
check between operations fails only if registers have not been given back. -/
theorem Visited.orderly {clean : Bool} {f : Frame} (h : Visited clean f) :
    f.Orderly ∧
    (clean = true → ∀ s, s < f.sp → (f.entry s).role = .own → (f.entry s).data = .memory →
      (f.entry s).dataSynced = true) ∧
    f.fault? = f.liveFault? := by
  obtain ⟨hc, hb⟩ := h.coherent
  refine ⟨.of_coherent hc, fun hclean s hs hown hmem => ?_, hc.sound.fault?_eq⟩
  exact hb hclean s ⟨hs, by simp⟩ hown hmem

/-- An argument is loaded and copied. -/
def copiedArgument : Frame :=
  let f := (Call.operation (.dataReg 0)).outcome (.new 1 0 #[.unknown] 2)
  ((Call.operation (.pushCopy 0)).outcome f.2).2

theorem visited_copiedArgument : Visited true copiedArgument := by
  have h₁ := (Visited.new 1 0 #[.unknown] 2).call (.operation (.dataReg 0))
    (show 0 < _ by decide +kernel)
  have h₂ := h₁.call (.operation (.pushCopy 0)) (show 0 < _ by decide +kernel)
  have hok : (true && ((Call.operation (.dataReg 0)).outcome (.new 1 0 #[.unknown] 2)).1 &&
      ((Call.operation (.pushCopy 0)).outcome
        ((Call.operation (.dataReg 0)).outcome (.new 1 0 #[.unknown] 2)).2).1) = true := by
    decide +kernel
  rwa [hok] at h₂

/-- Then a call fails that would have recorded that nothing is known. -/
def failedHistory : Frame :=
  ((Call.operation (.learnType 1 .unknown)).outcome copiedArgument).2

/-- The frame after a failed call has a copy and a bound register, and they are in order. -/
theorem Visited.orderly_failedHistory :
    Visited false failedHistory ∧ failedHistory.regs.binding ⟨0⟩ = .data 0 ∧
    (failedHistory.entry 1).role = .copyOf 0 ∧ failedHistory.Orderly ∧
    failedHistory.fault? = failedHistory.liveFault? := by
  have h : Visited false failedHistory := by
    have hfail : ((Call.operation (.learnType 1 .unknown)).outcome copiedArgument).1 = false := by
      decide +kernel
    have h : Visited (_ && ((Call.operation (.learnType 1 .unknown)).outcome copiedArgument).1)
        failedHistory :=
      visited_copiedArgument.call (.operation (.learnType 1 .unknown)) (show 1 < _ by decide +kernel)
    rwa [hfail, Bool.and_false] at h
  obtain ⟨ho, -, hf⟩ := h.orderly
  exact ⟨h, by decide +kernel, by decide +kernel, ho, hf⟩

end Frame

namespace Operation

/-- Every operation of the tracker does to the values of the frame what it is meant to do. If
it succeeds after any history of calls, the code that it emits runs on every machine that is
consistent with the frame and ends in a machine that is consistent with the new frame. The new
frame stands for the array that the operation makes of the old one; the answer stands for what
was asked for; and temporaries that are not given back keep their contents, as do the heap and
the caches. -/
theorem run_refines (op : Operation) {clean : Bool} {f f' : Frame} {m : Machine} {a : Answer}
    {code code' : Array Inst} (hf : f.Visited clean) (hm : f.Consistent m) (hvalid : op.Valid f)
    (hfits : op.Fits f m) (htrue : op.Truthful f m)
    (hrun : op.run ⟨f, code⟩ = .ok a ⟨f', code'⟩) :
    ∃ is m', code'.toList = code.toList ++ is ∧ Runs is m m' ∧ f'.Consistent m' ∧
      f'.Denotes m' (op.apply f.varSlot ((op.pushed? f m).getD .undefined) (f.values m)) ∧
      op.Answers f (f.values m) a f' m' ∧
      (∀ r, f.regs.binding r = .temp → ¬op.Consumes r →
        f'.regs.binding r = .temp ∧ m'.reg r = m.reg r) ∧
      (∀ r, f.regs.fbinding r = .temp → ¬op.FConsumes r →
        f'.regs.fbinding r = .temp ∧ m'.freg r = m.freg r) ∧
      m.SameWorld m' := by
  obtain ⟨hs, hbase⟩ := hf.coherent.1
  obtain ⟨is, m', hcode, hruns, ho⟩ := op.run_ensures (hm.tracks hs) (by simp [values]) hbase
    hvalid hfits htrue code a ⟨f', code'⟩ hrun
  exact ⟨is, m', hcode, hruns, ho.tracks.consistent, ho.tracks.denotes ho.size fun _ _ => rfl,
    ho.answer, ho.temp, ho.ftemp, ho.world⟩

/-- The argument has been copied, and a constant is on the stack. -/
def argumentAndSeven : Frame :=
  ((Call.operation (.pushConstant (.int32 7))).outcome copiedArgument).2

/-- The constant is stored into the argument, whose copy keeps the old value. -/
theorem run_refines_overwrite : ∃ f' is m',
    argumentAndSeven.regs.binding ⟨0⟩ = .data 0 ∧
    (argumentAndSeven.entry 1).role = .copyOf 0 ∧
    run (.store 0 2) ⟨argumentAndSeven, #[]⟩ = .ok .done ⟨f', is⟩ ∧
    Runs is.toList (argumentAndSeven.sample .int32 3) m' ∧
    f'.Denotes m' #[.int32 7, .int32 0, .int32 7] := by
  have hf : argumentAndSeven.Visited _ := visited_copiedArgument.call _ trivial
  have hm := (hf.coherent.1.sound.tracks_sample (D := Cell.anyCell) (k := .int32)
    (show argumentAndSeven.sp ≤ 3 by decide +kernel)).consistent
  have hok : (match run (.store 0 2) ⟨argumentAndSeven, #[]⟩ with
      | .ok a _ => some a
      | .error .. => none) = some .done := by decide +kernel
  split at hok
  case h_2 => cases hok
  case h_1 a e hrun =>
    obtain ⟨f', is⟩ := e
    cases hok
    obtain ⟨is', m', hcode, hruns, -, hden, -⟩ :=
      run_refines (.store 0 2) hf hm (show 0 < _ ∧ 2 < _ by decide +kernel) trivial trivial hrun
    cases (show is.toList = is' by simpa using hcode)
    have hvs : (argumentAndSeven.values (argumentAndSeven.sample .int32 3)) =
        #[.int32 0, .int32 0, .int32 7] := by decide +kernel
    rw [hvs] at hden
    exact ⟨f', is, m', by decide +kernel, by decide +kernel, hrun, hruns, hden⟩

end Operation

end FastPath
