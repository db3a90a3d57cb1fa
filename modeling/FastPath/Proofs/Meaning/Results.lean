import FastPath.Proofs.Meaning.Carrying
import FastPath.Proofs.Stub.Meaning

/-!
# Results in the place of operands

An emitter ends by giving back its registers, dropping the operands and pushing the result. If
guards lead to a slow path, the frame is stored there, a stub is called, and the registers of
the new frame are loaded from memory; both paths then meet with the result in place.

What an operation may come to is an `Answer`. The fast path has to show that its result is one;
the slow path shows it of whatever the stub makes of the values in memory, which are those of the
frame up to the representation of numbers.
-/

namespace FastPath

open FrameM Frame

attribute [local instance] Cell.written

theorem Stub.uses_pos {s : Stub} (h : s.isOperator) : 0 < s.uses := by
  cases s <;> first | exact Nat.succ_pos _ | cases h

/-- What an operation may come to: a value and a heap, or a failure and a heap. -/
structure Answer where
  ok : Value → Heap → Prop
  error : OpError → Heap → Prop

/-- The run is over because the operation failed. -/
def Answer.Stops (A : Answer) (o : Outcome) (m : Machine) : Prop :=
  ∃ e, o.FailsWith e ∧ A.error e m.heap

/-- A monitored result passes the check. -/
def Placement.Admits (E : Placement) (v : Value) : Prop :=
  ∀ promised, E.monitored = some promised → (TypeSet.of (.ofBits promised)).contains v

namespace Frame

/-- Values that a stub may find in memory in the place of `n` operands. -/
def Supplies (f : Frame) (σ : Store) (n : Nat) (us : List Value) : Prop :=
  us.length = n ∧ ∀ i u, us[i]? = some u →
    (f.knownType (f.sp - n + i)).Fits u (σ.env (f.sp - n + i))

/-- The memory of the frame has its values, whatever the registers hold. -/
structure Stored (f : Frame) (N : Nat) (σ : Store) (m : Machine) : Prop where
  saved : f.Saved m σ.env
  heap : m.heap = σ.heap
  room : N < m.slots.size

/-- A stub has left a word, and a result in slot `n`; the slots below are as the frame was
stored. -/
structure Answered (f : Frame) (N : Nat) (σ : Store) (n : Nat) (w : UInt64) (r : Value)
    (m : Machine) : Prop where
  room : N < m.slots.size
  saved : ∃ m₀, f.Saved m₀ σ.env ∧ m.slots.size = m₀.slots.size ∧
    ∀ s < n, m.slots[s]? = m₀.slots[s]?
  result : m.slots[n]? = some r.toCell
  word : m.reg .result = some w

/-- A stub has left an answer in slot `n`. -/
def Answers (f : Frame) (N : Nat) (σ : Store) (n : Nat) (A : Answer) (m : Machine) : Prop :=
  ∃ w r, A.ok r m.heap ∧ f.Answered N σ n w r m

/-- The machine carries the values of the store with an answer in slot `n`. -/
def Result (f : Frame) (N : Nat) (σ : Store) (n : Nat) (A : Answer) (m : Machine) : Prop :=
  ∃ r h, A.ok r h ∧ f.Carries N (σ.put n r h) m

/-- The frame has lost registers or entries at the top, and nothing else. -/
structure Clears (f f' : Frame) : Prop where
  sound : f'.Sound none
  sp : f'.sp ≤ f.sp
  entry : ∀ s < f'.sp, f'.entry s = f.entry s
  continues : f.Continues f'

/-- The second frame has a result of some type in slot `n`, and is the first one below. -/
structure Replaces (f f' : Frame) (n : Nat) (t : KnownType) : Prop where
  sound : f'.Sound none
  le : n ≤ f.sp
  sp : f'.sp = n + 1
  below : ∀ s < n, f'.entry s = f.entry s
  role : (f'.entry n).role = .own
  type : (f'.entry n).type = t
  continues : f.Continues f'

/-- The frame at the end of an operation that leaves the stack pointer at `n`. -/
structure Ends (f f' : Frame) (n : Nat) : Prop where
  sound : f'.Sound none
  sp : f'.sp = n
  continues : f.Continues f'

variable {f f' f'' : Frame} {N n : Nat} {σ : Store} {K : Holdings} {H : Prop} {m m' : Machine}
  {w : UInt64} {r v : Value} {A : Answer} {t : KnownType}

theorem SameView.continues (h : f.SameView f') : f.Continues f' := h.sameExtent.continues

theorem Clears.refl (hs : f.Sound none) : f.Clears f :=
  ⟨hs, Nat.le_refl _, fun _ _ => rfl, (SameExtent.refl f).continues⟩

theorem Clears.trans (h : f.Clears f') (h' : f'.Clears f'') : f.Clears f'' where
  sound := h'.sound
  sp := Nat.le_trans h'.sp h.sp
  entry s hs := (h'.entry s hs).trans (h.entry s (Nat.lt_of_lt_of_le hs h'.sp))
  continues := h.continues.trans h'.continues

theorem Clears.mapRegs {g : RegisterFile → RegisterFile} (hs : (f.mapRegs g).Sound none) :
    f.Clears (f.mapRegs g) :=
  ⟨hs, Nat.le_refl _, fun _ _ => rfl, ⟨rfl, rfl, Nat.le_refl _, rfl, rfl⟩⟩

theorem Clears.replaces (h : f.Clears f') (h' : f'.Replaces f'' n t) : f.Replaces f'' n t where
  sound := h'.sound
  le := Nat.le_trans h'.le h.sp
  sp := h'.sp
  below s hs := (h'.below s hs).trans (h.entry s (Nat.lt_of_lt_of_le hs h'.le))
  role := h'.role
  type := h'.type
  continues := h.continues.trans h'.continues

theorem Replaces.ends (h : f.Replaces f' n t) : f.Ends f' (n + 1) := ⟨h.sound, h.sp, h.continues⟩

theorem Clears.ends (h : f.Clears f') (h' : f'.Ends f'' n) : f.Ends f'' n :=
  ⟨h'.sound, h'.sp, h.continues.trans h'.continues⟩

theorem SameView.ends (h : f.SameView f') (h' : f'.Ends f'' n) : f.Ends f'' n :=
  ⟨h'.sound, h'.sp, h.continues.trans h'.continues⟩

theorem entry_pop (s : Slot) (hs : s < f.sp - 1) : f.pop.entry s = f.entry s := by
  have hne : ¬(f.peek 1 = s ∧ f.peek 1 < f.entries.size) := by
    rintro ⟨rfl, -⟩
    exact Nat.lt_irrefl _ hs
  change (f.release (f.peek 1)).entry s = f.entry s
  rw [entry_release, if_neg hne]

theorem Clears.pop (h : f.Sound none) (hs : 0 < f.sp) : f.Clears f.pop := by
  obtain ⟨m, env, htr⟩ := h.exists_tracks
  exact ⟨(htr.pop hs).sound, Nat.sub_le _ _, fun s hlt => entry_pop s hlt, continues_pop f⟩

theorem Clears.popN (h : f.Sound none) (hs : n ≤ f.sp) : f.Clears (popN n f) := by
  induction n generalizing f with
  | zero => exact .refl h
  | succ n ih =>
    have hpop := Clears.pop h (Nat.lt_of_lt_of_le (Nat.succ_pos n) hs)
    exact hpop.trans (ih hpop.sound (by change n ≤ f.sp - 1; omega))

/-- Storing the frame. -/
theorem Carries.runs_save (h : f.Carries N σ m) :
    ∃ m', Runs f.syncCode m m' ∧ f.Stored N σ m' := by
  obtain ⟨m', hr, honly, hsaved⟩ := h.tracks.runs_save
  exact ⟨m', hr, hsaved, honly.world.heap.trans h.heap, honly.world.size ▸ h.room⟩

/-- Memory that is up to date. -/
theorem Carries.stored (h : f.Carries N σ m) (hs : f.Synced) : f.Stored N σ m :=
  ⟨h.tracks.saved_of_synced hs, h.heap, h.room⟩

theorem mergeCode_of_bare (h : f.Bare) : f.mergeCode = [] := by
  refine List.flatMap_eq_nil_iff.2 fun s hs => ?_
  obtain ⟨hdata, htag⟩ := h s (List.mem_range.1 hs)
  simp only [entryMergeCode, hdata, htag]
  split <;> rfl

/-- Stored values can be read. -/
theorem Saved.readable (h : f.Saved m σ.env) : Readable m.slots f.sp := by
  refine ⟨h.room, exists_mapM_ok fun c hc => ?_⟩
  obtain ⟨s, hs⟩ := List.getElem?_of_mem hc
  rw [List.getElem?_take, Array.getElem?_toList] at hs
  split at hs
  · next hlt =>
    obtain ⟨c', u, hc', hu, -⟩ := h.stores s hlt
    obtain rfl := Option.some.inj (hs.symm.trans hc')
    exact ⟨u, hu.1⟩
  · cases hs

/-- What a stub finds in stored memory. -/
theorem Saved.operands (h : f.Saved m σ.env) (hn : n ≤ f.sp) :
    ∃ us, f.Supplies σ n us ∧ HoldsOperands m.slots f.sp us := by
  have hex : ∀ i : Fin n, ∃ u, (f.knownType (f.sp - n + i)).Fits u (σ.env (f.sp - n + i)) ∧
      ∃ c, m.slots[f.sp - n + i]? = some c ∧ c.decode = .ok u := by
    intro i
    obtain ⟨c, u, hc, hu, hfit⟩ := h.stores (f.sp - n + i) (by have := i.isLt; omega)
    exact ⟨u, hfit, c, hc, hu.1⟩
  choose g hfit hslot using hex
  have hget : ∀ i u, (List.ofFn g)[i]? = some u → ∃ hi : i < n, u = g ⟨i, hi⟩ := by
    intro i u hu
    obtain ⟨hi, rfl⟩ := List.getElem?_eq_some_iff.1 hu
    exact ⟨by simpa using hi, by simp⟩
  refine ⟨List.ofFn g, ⟨List.length_ofFn, fun i u hu => ?_⟩, ?_, fun i u hu => ?_⟩
  · obtain ⟨hi, rfl⟩ := hget i u hu
    exact hfit ⟨i, hi⟩
  · rwa [List.length_ofFn]
  · obtain ⟨hi, rfl⟩ := hget i u hu
    rw [List.length_ofFn]
    exact hslot ⟨i, hi⟩

/-- The registers of a frame with a result in it are loaded. -/
theorem Answered.runs_mergeCode (h : f.Answered N σ n w r m) (hf : f.Replaces f' n t)
    (ht : t.Describes r) :
    ∃ m', Runs f'.mergeCode m m' ∧ f'.Carries N (σ.put n r m.heap) m' := by
  obtain ⟨m₀, hsaved, hsize, hslots⟩ := h.saved
  have hs : f'.Saved m (assign σ.env n r) :=
    hsaved.replace hf.le hf.sp hf.below hf.role (hf.type ▸ ht) hsize hslots h.result
  obtain ⟨m', hr, hworld, -, htr⟩ := hs.runs_mergeCode hf.sound
  exact ⟨m', hr, htr, hworld.heap, hworld.size ▸ h.room⟩

/-- There is nothing to load if no slot has a register. -/
theorem Answered.carries (h : f.Answered N σ n w r m) (hf : f.Replaces f' n t)
    (ht : t.Describes r) (hbare : f'.Bare) : f'.Carries N (σ.put n r m.heap) m := by
  obtain ⟨m', hr, hc⟩ := h.runs_mergeCode hf ht
  rw [mergeCode_of_bare hbare] at hr
  cases hr
  exact hc

theorem Sound.target?_syncCode (hs : f.Sound none) : ∀ i ∈ f.syncCode, i.target? = none := by
  obtain ⟨m, env, htr⟩ := hs.exists_tracks
  obtain ⟨m', hr, -⟩ := htr.runs_save
  exact fun i hi => Inst.target?_of_isLocal (hr.isLocal i hi)

theorem Sound.target?_mergeCode (hs : f.Sound none) : ∀ i ∈ f.mergeCode, i.target? = none := by
  obtain ⟨m, env, htr⟩ := hs.exists_tracks
  obtain ⟨m', -, -, hsaved⟩ := htr.runs_save
  obtain ⟨m'', hr, -⟩ := hsaved.runs_mergeCode hs
  exact fun i hi => Inst.target?_of_isLocal (hr.isLocal i hi)

variable {taken : Reg → Prop} {ftaken : FReg → Prop}

theorem Extends.continues (h : f.Extends f' taken ftaken) : f.Continues f' :=
  ⟨h.argCount, h.localCount, h.maxSp ▸ Nat.le_max_left _ _, h.pc, h.baseTypes⟩

/-- A push of a value that the new slot has itself. -/
theorem Extends.replaces (h : f.Extends f' taken ftaken) (hs : f'.Sound none)
    (hrole : (f'.entry f.sp).role = .own) (ht : (f'.entry f.sp).type = t) :
    f.Replaces f' f.sp t ∧ f.sp < f'.maxSp :=
  ⟨⟨hs, Nat.le_refl _, h.sp, h.entry, hrole, ht, h.continues⟩, h.maxSp ▸ Nat.le_max_right _ _⟩

end Frame

namespace FrameM

variable {f : Frame} {m : Machine} {t : KnownType} {r rt rp : Reg} {x : FReg} {types : TypeSet}

theorem Ensures.and {α : Type} {y : FrameM α} {Q : α → Frame → Machine → Prop}
    {P : α → Frame → Prop} (h : Ensures y f m Q) (h' : Ensures y f m fun a f' _ => P a f') :
    Ensures y f m fun a f' m' => Q a f' m' ∧ P a f' := by
  intro code a s' hx
  obtain ⟨is, m₁, hcode, hruns, hq⟩ := h code a s' hx
  obtain ⟨-, -, -, -, hp⟩ := h' code a s' hx
  exact ⟨is, m₁, hcode, hruns, hq, hp⟩

/-! ### The entries that pushes leave -/

/-- The new entry owns its value and has the type. -/
theorem pushTyped_entry (hs : f.sp ≤ f.entries.size) :
    Ensures (pushTyped t r) f m fun s f' _ => f.regs.binding r = .temp ∧ s = f.sp ∧
      (f'.entry f.sp).role = .own ∧ (f'.entry f.sp).type = t := by
  unfold pushTyped
  split
  · exact ensures_bind ensures_fail
  · refine ensures_look ?_
    split
    · next htemp =>
      refine ensures_bind (ensures_look (ensures_bind (ensures_update
        (ensures_pure (ensures_regs (ensures_pure ?_))))))
      rw [entry_mapRegs, entry_push_self hs]
      exact ⟨htemp, rfl, rfl, rfl⟩
    · exact ensures_bind ensures_fail

theorem pushDouble_temp : Ensures (pushDouble x) f m fun _ _ _ => f.regs.fbinding x = .temp := by
  unfold pushDouble
  refine ensures_look ?_
  split
  · next htemp =>
    exact ensures_bind (ensures_look (ensures_bind (ensures_update
      (ensures_pure (ensures_regs (ensures_pure htemp))))))
  · exact ensures_bind ensures_fail

/-- A push of both words of a value. -/
theorem pushRegs_entry (hs : f.sp ≤ f.entries.size) (ht : types.knownType ≠ .double) :
    Ensures (pushRegs rt rp types) f m fun _ f' _ => f.regs.binding rt = .temp ∧
      (rt ≠ rp → f.regs.binding rp = .temp) ∧ (f'.entry f.sp).role = .own ∧
      (f'.entry f.sp).type = types.knownType := by
  unfold pushRegs
  split
  · unfold free
    refine ensures_bind (ensures_look ?_)
    split
    · next htemp =>
      refine ensures_updateRegs (ensures_bind ((pushTyped_entry (by exact hs)).mono ?_))
      rintro s f' m' ⟨htemp', rfl, hrole, htype⟩
      refine ensures_bind (ensures_update (ensures_pure ⟨htemp, fun hne => ?_, ?_⟩))
      · simpa [hne] using htemp'
      · rw [sp_mapRegs, entry_update]
        split <;> exact ⟨hrole, htype⟩
    · exact ensures_bind ensures_fail
  · next hnone =>
    have hunknown : types.knownType = .unknown := by
      cases h : types.knownType <;> simp_all [KnownType.tag?]
    refine ensures_look ?_
    by_cases htemp : f.regs.binding rt = .temp
    · by_cases htemp' : f.regs.binding rp = .temp
      · rw [if_pos htemp, if_pos htemp']
        refine ensures_bind (ensures_look (ensures_bind (ensures_update
          (ensures_pure (ensures_regs (ensures_bind (ensures_updateRegs
          (ensures_pure ⟨htemp, fun _ => htemp', ?_⟩))))))))
        rw [entry_mapRegs, entry_mapRegs, entry_push_self hs, hunknown]
        exact ⟨rfl, rfl⟩
      · rw [if_pos htemp, if_neg htemp']
        exact ensures_bind ensures_fail
    · rw [if_neg htemp]
      exact ensures_bind ensures_fail

/-- A register becomes an entry of a known type. -/
theorem pushTyped_replaces (hs : f.Sound none) : ∃ m, Ensures (pushTyped t r) f m fun _ f' _ =>
    f.Replaces f' f.sp t ∧ f.sp < f'.maxSp := by
  by_cases hr : f.regs.binding r = .temp
  · have htr := hs.tracks_sample (D := Cell.written) (k := t) (Nat.le_succ f.sp)
    refine ⟨_, (pushTyped_ensures htr (by simp [size_sample]) (r := r) (v := t.sample)
      (by rw [reg_sample (lt_count_of_temp hr), hr])
      (fun tag htag => t.tag_sample htag ▸ t.reads_sample)).mono ?_⟩
    rintro s f' m' ⟨-, -, -, hext, hentry, htr'⟩
    exact hext.replaces htr'.sound (by rw [hentry]; rfl) (by rw [hentry]; rfl)
  · exact ⟨default, (pushTyped_entry hs.sp_le).mono fun _ _ _ h => absurd h.1 hr⟩

/-- A double register becomes a number. -/
theorem pushDouble_replaces (hs : f.Sound none) : ∃ m, Ensures (pushDouble x) f m fun _ f' _ =>
    f.Replaces f' f.sp .double ∧ f.sp < f'.maxSp := by
  by_cases hr : f.regs.fbinding x = .temp
  · have htr := hs.tracks_sample (D := Cell.written) (k := .double) (Nat.le_succ f.sp)
    refine ⟨_, (pushDouble_ensures htr (by simp [size_sample])
      (freg_sample (lt_count_of_ftemp hr)) (Value.same_refl _)).mono ?_⟩
    rintro s f' m' ⟨-, -, -, hext, hentry, htr'⟩
    exact hext.replaces htr'.sound (by rw [hentry]; rfl) (by rw [hentry]; rfl)
  · exact ⟨default, pushDouble_temp.mono fun _ _ _ h => absurd h hr⟩

/-- Two registers become an entry of the type that is known. -/
theorem pushRegs_replaces (hs : f.Sound none) (hne : rt ≠ rp) (ht : types.knownType ≠ .double) :
    ∃ m, Ensures (pushRegs rt rp types) f m fun _ f' _ =>
      f.Replaces f' f.sp types.knownType ∧ f.sp < f'.maxSp := by
  by_cases hr : f.regs.binding rt = .temp ∧ f.regs.binding rp = .temp
  · have hlt := lt_count_of_temp hr.1
    have hlt' := lt_count_of_temp hr.2
    have htr := (hs.tracks_sample (D := Cell.written) (k := types.knownType)
      (Nat.le_succ f.sp)).setReg (r := rt) types.knownType.sample.tag.word
        (by simp [hr.1, Binding.slot?])
    refine ⟨_, ((pushRegs_ensures htr (by simp [size_sample, Machine.setReg])
      (c := ⟨types.knownType.sample.tag.word, 0⟩) (v := types.knownType.sample) hne
      (by simp [hlt]) (by simp [hne, reg_sample hlt', hr.2]) (KnownType.reads_sample _)
      (fun _ => KnownType.tag_sample _)).and (pushRegs_entry hs.sp_le ht)).mono ?_⟩
    rintro s f' m' ⟨⟨-, -, -, -, hext, htr'⟩, -, -, hrole, htype⟩
    exact hext.replaces htr'.sound hrole htype
  · refine ⟨default, (pushRegs_entry hs.sp_le ht).mono fun _ _ _ h => absurd ⟨h.1, h.2.1 hne⟩ hr⟩

end FrameM

/-- What the stub makes of the values that it may find in memory is an answer. -/
structure Answer.Covers (A : Answer) (E : Placement) (f : Frame) (σ : Store)
    (stub : Stub) : Prop where
  isOperator : stub.isOperator
  defs : stub.defs ≠ 0
  uses : stub.uses ≤ f.sp
  ok : ∀ us r h, f.Supplies σ stub.uses us → stub.apply us σ.heap = .ok r h → A.ok r h ∧ E.Admits r
  error : ∀ us e h, f.Supplies σ stub.uses us → stub.apply us σ.heap = .error e h → A.error e h

variable {f f' : Frame} {σ : Store}

theorem Frame.SameView.supplies {n : Nat} {us : List Value} (h : f.SameView f') :
    f'.Supplies σ n us ↔ f.Supplies σ n us := by
  unfold Supplies
  simp only [h.sp, h.knownType]

theorem Answer.Covers.view {A : Answer} {E : Placement} {stub : Stub} (h : A.Covers E f σ stub)
    (hv : f.SameView f') : A.Covers E f' σ stub :=
  ⟨h.isOperator, h.defs, hv.sp ▸ h.uses, fun us r h' hp => h.ok us r h' (hv.supplies.1 hp),
    fun us e h' hp => h.error us e h' (hv.supplies.1 hp)⟩

namespace Scene

variable {E : Placement} {k : Cursor} {S : Scene} {σ : Store} {f g : Frame} {K : Holdings}
  {H : Prop} {A : Answer} {n : Nat} {t : KnownType}

/-- Control is at the end of the fast stream, or of the slow one if there is a slow path, or the
run is over. -/
def paths (F : Machine → Prop) (slow : Bool) (G : Machine → Prop) (T : Outcome → Machine → Prop) :
    Scene :=
  { start F with slow := fun m => slow = true ∧ G m, stop := T }

/-- The stub has been called, if there is a slow path, and registers are being given back. The
frame was `g` and has now `d` slots, and the result of the stub is in slot `n`. -/
structure Releasing (S : Scene) (E : Placement) (σ : Store) (A : Answer) (slow : Bool) (g : Frame)
    (n d : Nat) (K : Holdings) (H : Prop) (k : Cursor) : Prop where
  clears : g.Clears k.frame
  sp : k.frame.sp = d
  within : S.Within (paths (k.frame.Works E.room σ K H) slow (g.Answers E.room σ n A) A.Stops)

/-- The result has been pushed. -/
structure Pushed (S : Scene) (E : Placement) (σ : Store) (A : Answer) (slow : Bool) (g : Frame)
    (n : Nat) (t : KnownType) (k : Cursor) : Prop where
  replaces : g.Replaces k.frame n t
  within : S.Within (paths (k.frame.Result E.room σ n A) slow (g.Answers E.room σ n A) A.Stops)

/-- The operation has left a result in slot `n`, or the run is over. -/
structure Yields (S : Scene) (E : Placement) (σ : Store) (A : Answer) (f : Frame) (n : Nat)
    (k : Cursor) : Prop where
  ends : f.Ends k.frame (n + 1)
  within : S.Within { start (k.frame.Result E.room σ n A) with stop := A.Stops }

/-- Without a slow path, the result is there. -/
theorem Pushed.yields (h : S.Pushed E σ A false g n t k) : S.Yields E σ A g n k where
  ends := h.replaces.ends
  within := by
    refine h.within.trans
      ⟨fun _ => id, fun _ hm => absurd hm.1 Bool.false_ne_true, fun _ hm => hm.elim,
      fun _ _ hm => hm.elim, fun _ _ hm => hm.elim, fun _ _ => id⟩

theorem Yields.view (h : S.Yields E σ A g n k) (hv : f.SameView g) : S.Yields E σ A f n k :=
  ⟨hv.ends h.ends, h.within⟩

end Scene

namespace AsmM

variable {α β : Type} {E : Placement} {k : Cursor} {S : Scene} {σ : Store} {K : Holdings} {H : Prop}
  {A : Answer} {f g : Frame} {slow : Bool} {n d : Nat} {t : KnownType} {v : Value}

/-! ### The slow path -/

variable {stub : Stub} {Q : Unit → Cursor → Scene → Prop} {x : FrameM α} {changes : Nat}

section Operator

variable (hok : ∀ us r h, k.frame.Supplies σ stub.uses us → stub.apply us σ.heap = .ok r h →
    A.ok r h ∧ E.Admits r)
  (herror : ∀ us e h, k.frame.Supplies σ stub.uses us → stub.apply us σ.heap = .error e h →
    A.error e h)
include hok herror

/-- A call of an operator on memory that is up to date. -/
theorem emits_callOperator {s : Stream} {Q : Label → Cursor → Scene → Prop}
    (hstub : stub.isOperator) (hdefs : stub.defs ≠ 0) (huses : stub.uses ≤ k.frame.sp)
    (hends : ∀ m, S.ends s m → k.frame.Stored E.room σ m) (hstop : ∀ o m, S.stop o m → A.Stops o m)
    (h : Q (k.ends s) (k.next s) { S.withEnd s (fun m => ∃ r, A.ok r m.heap ∧
      k.frame.Answered E.room σ (k.frame.sp - stub.uses) (stub.word r) r m) with
      stop := A.Stops }) :
    Emits E (emitCall s fun sp => .callStub stub sp 0) k S Q := by
  refine emits_call (F := fun m => ∃ r, A.ok r m.heap ∧
      k.frame.Answered E.room σ (k.frame.sp - stub.uses) (stub.word r) r m)
    (T := A.Stops) ?_ hstop h
  intro m hm
  obtain ⟨hsaved, hheap, hroom⟩ := hends m hm
  obtain ⟨us, hpass, hops⟩ := hsaved.operands huses
  rw [StubCall.invoke_eq (c := ⟨E.position.function, k.frame.sp, 0⟩) hstub hops hpass.1, hheap]
  cases hrun : stub.apply us σ.heap with
  | error e h' => exact ⟨hsaved.readable, fun out hout => ⟨e, hout, herror us e h' hpass hrun⟩⟩
  | ok r h' =>
    obtain ⟨ha, hadmits⟩ := hok us r h' hpass hrun
    have hlt : k.frame.sp - stub.uses < m.slots.size :=
      Nat.lt_of_lt_of_le (Nat.sub_lt_self (Stub.uses_pos hstub) huses) hsaved.room
    have hdeposit : stub.deposit m.slots k.frame.sp r =
        m.slots.setIfInBounds (k.frame.sp - stub.uses) r.toCell := if_neg hdefs
    have hres : (stub.deposit m.slots k.frame.sp r)[k.frame.sp - stub.uses]? = some r.toCell := by
      rw [hdeposit, Array.getElem?_setIfInBounds_self_of_lt hlt]
    refine ⟨fun promised hp => .inr ⟨_, r, hres, Cell.decode_toCell r, hadmits promised hp⟩, r,
      ha, ?_, ?_, hres, ?_⟩
    · simpa [hdeposit] using hroom
    · refine ⟨m, hsaved, by simp [hdeposit], fun s hlt => ?_⟩
      simp only [Machine.slots_returned, hdeposit]
      exact Array.getElem?_setIfInBounds_ne (Nat.ne_of_gt hlt)
    · exact Machine.reg_result_returned ..

/-- The guards that wait lead to a stub call. -/
theorem emits_slowCall (hs : k.frame.Sound none) (hstub : stub.isOperator) (hdefs : stub.defs ≠ 0)
    (huses : stub.uses ≤ k.frame.sp) (hexit : ∀ m, S.exit m → k.frame.Carries E.room σ m)
    (hslow : ∀ m, S.slow m → k.frame.Carries E.room σ m) (hstop : ∀ o m, S.stop o m → A.Stops o m)
    (h : ∀ l, Q () { k with slow := l } { S with
      slow := fun m => ∃ r, A.ok r m.heap ∧
        k.frame.Answered E.room σ (k.frame.sp - stub.uses) (stub.word r) r m
      exit := fun _ => False
      stop := A.Stops }) : Emits E (slowCall stub 0) k S Q := by
  unfold slowCall
  refine emits_bind (emits_leave (G := k.frame.Stored E.room σ) hs.target?_syncCode ?_ fun l => ?_)
  · exact fun m hm => (hm.elim (hexit m) (hslow m)).runs_save
  · exact emits_bind (emits_callOperator (k := { k with slow := l }) hok herror (s := .slow) hstub
      hdefs huses (fun _ => id) hstop (emits_pure (h l.next)))

end Operator

/-- The guards that wait lead to a stub call, and the frame stays. -/
theorem slowCall_emits (h : S.Armed E σ f K H k) (hA : A.Covers E f σ stub) :
    Emits E (slowCall stub 0) k S fun _ k' S' =>
      S'.Releasing E σ A true k.frame (f.sp - stub.uses) f.sp K H k' := by
  have hA' := hA.view h.view
  refine Emits.weaken ?_ h.within
  refine emits_slowCall hA'.ok hA'.error h.holding.sound hA.isOperator hA.defs hA'.uses
    (fun _ => id) (fun _ hm => hm.elim) (fun _ _ hm => hm.elim) fun l => ?_
  refine ⟨.refl h.holding.sound, h.view.sp, ⟨fun _ => id, ?_, fun _ hm => hm.elim,
    fun _ _ hm => hm.elim, fun _ _ hm => hm.elim, fun _ _ => id⟩⟩
  rintro m ⟨r, ha, hans⟩
  exact ⟨rfl, _, r, ha, h.view.sp ▸ hans⟩

/-! ### Giving back registers -/

/-- A tracker operation that emits nothing and gives registers back. -/
theorem release_emits (h : S.Releasing E σ A slow g n d K H k)
    (hx : ∀ m env, k.frame.Tracks none m env → Ensures x k.frame m fun _ f' m' =>
      m' = m ∧ k.frame.Clears f' ∧ f'.sp = k.frame.sp ∧ f'.Tracks none m env) :
    Emits E (liftM x) k S fun _ k' S' => S'.Releasing E σ A slow g n d K H k' := by
  refine Emits.weaken (emits_lift (P := fun _ f' => k.frame.Clears f' ∧ f'.sp = k.frame.sp)
    (F := fun _ f' => f'.Works E.room σ K H) ?_ (fun _ _ hf => hf.1.continues.maxSp) ?_ ?_) h.within
  · obtain ⟨m, env, htr⟩ := h.clears.sound.exists_tracks
    exact ⟨m, (hx m env htr).mono fun _ _ _ hq => ⟨hq.2.1, hq.2.2.1⟩⟩
  · rintro - - - - m hw
    refine (hx m σ.env hw.carries.tracks).mono ?_
    rintro r f' m' ⟨rfl, -, -, htr⟩
    exact ⟨hw.facts, ⟨htr, hw.carries.heap, hw.carries.room⟩, hw.shown⟩
  · rintro r f' l ⟨hf, hsp⟩
    exact ⟨h.clears.trans hf, hsp.trans h.sp, .refl _⟩

theorem free_emits {r : Reg} (h : S.Releasing E σ A slow g n d K H k) :
    Emits E (liftM (free r)) k S fun _ k' S' => S'.Releasing E σ A slow g n d K H k' := by
  refine release_emits h fun m env htr => (free_ensures htr).mono ?_
  rintro - f' m' ⟨-, rfl, rfl, htr'⟩
  exact ⟨rfl, .mapRegs htr'.sound, rfl, htr'⟩

theorem freeDouble_emits {x : FReg} (h : S.Releasing E σ A slow g n d K H k) :
    Emits E (liftM (freeDouble x)) k S fun _ k' S' =>
      S'.Releasing E σ A slow g n d K H k' := by
  refine release_emits h fun m env htr => (freeDouble_ensures htr).mono ?_
  rintro - f' m' ⟨-, rfl, rfl, htr'⟩
  exact ⟨rfl, .mapRegs htr'.sound, rfl, htr'⟩

/-- Taking pins off changes nothing else. -/
theorem unpinAll_ensures {m : Machine} {env : Slot → Value} (pins : List Reg)
    (h : f.Tracks none m env) : Ensures (CompileM.unpinAll pins) f m fun _ f' m' =>
      m' = m ∧ f.Clears f' ∧ f'.sp = f.sp ∧ f'.Tracks none m env := by
  induction pins generalizing f with
  | nil => exact ensures_pure ⟨rfl, .refl h.sound, rfl, h⟩
  | cons r pins ih =>
    have htr : (f.mapRegs (·.setPinned r false)).Tracks none m env :=
      h.of_regs (fun _ => .inl (by simp)) fun _ => .inl (by simp)
    change Ensures (do unpin r; CompileM.unpinAll pins) f m _
    refine ensures_bind (ensures_updateRegs ((ih htr).mono ?_))
    rintro - f' m' ⟨rfl, hc, hsp, htr'⟩
    exact ⟨rfl, (Clears.mapRegs htr.sound).trans hc, hsp, htr'⟩

theorem unpinAll_emits {pins : List Reg} (h : S.Releasing E σ A slow g n d K H k) :
    Emits E (liftM (CompileM.unpinAll pins)) k S fun _ k' S' =>
      S'.Releasing E σ A slow g n d K H k' :=
  release_emits h fun _ _ htr => unpinAll_ensures pins htr

/-- Dropping operands. -/
theorem popN_emits {i : Nat} (h : S.Releasing E σ A slow g n d K H k) (hi : i ≤ d) :
    Emits E (updateFrame (popN i)) k S fun _ k' S' =>
      S'.Releasing E σ A slow g n (d - i) K H k' := by
  have hle : i ≤ k.frame.sp := h.sp ▸ hi
  have hc := Clears.popN h.clears.sound hle
  refine Emits.weaken (emits_updateFrame (F := (popN i k.frame).Works E.room σ K H)
    hc.continues.maxSp (fun _ m hw => ?_) ?_) h.within
  · exact ⟨hw.facts, ⟨hw.carries.tracks.popN hle, hw.carries.heap, hw.carries.room⟩, hw.shown⟩
  · exact ⟨h.clears.trans hc, by rw [sp_popN, h.sp], .refl _⟩

/-! ### Pushing results -/

/-- A tracker operation that pushes a value that is in registers. -/
theorem push_emits (h : S.Releasing E σ A slow g n n K H k)
    (hx : ∃ m, Ensures x k.frame m fun _ f' _ =>
      k.frame.Replaces f' k.frame.sp t ∧ k.frame.sp < f'.maxSp) (hA : H → A.ok v σ.heap)
    (hv : ∀ m, k.frame.Works E.room σ K H m → k.frame.sp < m.slots.size →
      Ensures x k.frame m fun _ f' m' =>
        m' = m ∧ f'.Tracks none m (assign σ.env k.frame.sp v)) :
    Emits E (liftM x) k S fun _ k' S' => S'.Pushed E σ A slow g n t k' := by
  refine Emits.weaken (emits_lift (F := fun _ f' => f'.Result E.room σ n A) hx
    (fun _ _ hf => hf.1.continues.maxSp) ?_ ?_) h.within
  · rintro - f' ⟨-, hmax⟩ hN m hw
    have hroom : k.frame.sp < m.slots.size :=
      Nat.lt_trans (Nat.lt_of_lt_of_le hmax hN) hw.carries.room
    refine (hv m hw hroom).mono ?_
    rintro r f' m' ⟨rfl, htr⟩
    exact ⟨v, σ.heap, hA hw.facts, h.sp ▸ htr, hw.carries.heap, hw.carries.room⟩
  · rintro r f' l ⟨hf, -⟩
    exact ⟨h.clears.replaces (h.sp ▸ hf), .refl _⟩

/-- The value is pushed from the register that holds its payload. -/
theorem pushTyped_emits {r : Reg} (h : S.Releasing E σ A slow g n n K H k)
    (hr : K.reg r = some v.payload) (ht : H → ∀ tag, t.tag? = some tag → v.tag = tag)
    (hA : H → A.ok v σ.heap) : Emits E (liftM (pushTyped t r)) k S fun _ k' S' =>
      S'.Pushed E σ A slow g n t k' := by
  refine push_emits h (pushTyped_replaces h.clears.sound) hA fun m hw hroom => ?_
  refine (pushTyped_ensures (v := v) hw.carries.tracks hroom (hw.shown.reg r _ hr)
    fun tag htag => ?_).mono ?_
  · rw [← ht hw.facts tag htag]
    exact Cell.reads_toCell v
  · rintro s f' m' ⟨-, rfl, -, -, -, htr⟩
    exact ⟨rfl, htr⟩

/-- A number is pushed from the register that holds it. -/
theorem pushDouble_emits {x : FReg} (h : S.Releasing E σ A slow g n n K H k)
    (hx : K.freg x = some v) (hnum : H → v.isNumber) (hA : H → A.ok v σ.heap) :
    Emits E (liftM (pushDouble x)) k S fun _ k' S' =>
      S'.Pushed E σ A slow g n .double k' := by
  refine push_emits h (pushDouble_replaces h.clears.sound) hA fun m hw hroom => ?_
  obtain ⟨d, hd, hsame⟩ := hw.shown.freg x v hx
  refine (pushDouble_ensures hw.carries.tracks hroom hd (hsame (hnum hw.facts))).mono ?_
  rintro s f' m' ⟨-, rfl, -, -, -, htr⟩
  exact ⟨rfl, htr⟩

/-- The value is pushed from the registers that hold its words. -/
theorem pushRegs_emits {rt rp : Reg} (types : TypeSet) (h : S.Releasing E σ A slow g n n K H k)
    (hne : rt ≠ rp) (hdouble : types.knownType ≠ .double) (hrt : K.reg rt = some v.tag.word)
    (hrp : K.reg rp = some v.payload)
    (ht : H → ∀ tag, types.knownType.tag? = some tag → v.tag = tag) (hA : H → A.ok v σ.heap) :
    Emits E (liftM (pushRegs rt rp types)) k S fun _ k' S' =>
      S'.Pushed E σ A slow g n types.knownType k' := by
  refine push_emits h (pushRegs_replaces h.clears.sound hne hdouble) hA fun m hw hroom => ?_
  refine (pushRegs_ensures (c := v.toCell) hw.carries.tracks hroom hne
    (hw.shown.reg rt _ hrt) (hw.shown.reg rp _ hrp) (Cell.reads_toCell v) (ht hw.facts)).mono ?_
  rintro s f' m' ⟨-, rfl, -, -, -, htr⟩
  exact ⟨rfl, htr⟩

/-! ### Coming back -/

/-- Completing a call adds no code. -/
theorem grows_complete (a : Assembly) (sp changes : Nat) (rejoin : Option Label) :
    a.Grows { a with slow := a.slow.complete sp changes rejoin } := by
  have hget : ∀ (i : Nat) (c : PendingCall), a.slow.calls[i]? = some c → ∃ c' : PendingCall,
      (a.slow.complete sp changes rejoin).calls[i]? = some c' ∧ c.Survives c' := by
    intro i c hc
    refine ⟨_, by simp only [SlowPath.complete, Array.getElem?_mapIdx, hc]; rfl, ?_⟩
    dsimp only
    split
    · next h =>
      refine ⟨rfl, rfl, rfl, rfl, rfl, fun n hn => ?_⟩
      rw [hn] at h
      exact absurd h.2 (by simp)
    · exact .refl c
  have hcalls : (a.slow.complete sp changes rejoin).calls.toList.map (·.call) =
      a.slow.calls.toList.map (·.call) := by
    refine List.ext_getElem? fun i => ?_
    rw [List.getElem?_map, List.getElem?_map, Array.getElem?_toList, Array.getElem?_toList]
    cases hi : a.slow.calls[i]? with
    | none => simp [SlowPath.complete, hi]
    | some c =>
      obtain ⟨c', hc', hs⟩ := hget i c hi
      rw [hc', Option.map_some, Option.map_some, hs.call]
  refine ⟨fun _ _ => id, fun _ => id, fun c hc => ?_, Nat.le_refl _, fun hr => ?_⟩
  · obtain ⟨i, hi⟩ := Array.getElem?_of_mem hc
    obtain ⟨c', hc', hs⟩ := hget i c hi
    exact ⟨c', Array.mem_of_getElem? hc', hs⟩
  · refine ⟨hr.unlinked, fun c hc => ?_, ?_⟩
    · have hmem : c.call ∈ a.slow.calls.toList.map (·.call) :=
        hcalls ▸ List.mem_map_of_mem (Array.mem_toList_iff.2 hc)
      obtain ⟨c', hc', heq⟩ := List.mem_map.1 hmem
      have := hr.call_lt c' (Array.mem_toList_iff.1 hc')
      rwa [heq] at this
    · exact hcalls ▸ hr.call_nodup

/-- The calls of the operation are complete. -/
theorem emits_complete {sp : Nat} {rejoin : Option Label} (h : Q () k S) :
    Emits E (updateSlow (·.complete sp changes rejoin)) k S Q :=
  emits_updateSlow (fun _ => rfl) (fun _ => rfl) (fun a => grows_complete a sp changes rejoin) h

theorem emits_stale {cause : Staleness} {Q : α → Cursor → Scene → Prop} :
    Emits E (stale cause) k S Q := by
  intro a _ _ r b hx
  cases hx

/-- Both paths meet. -/
theorem emits_rejoin (hf : f.Replaces k.frame n t) (ht : ∀ r h, A.ok r h → t.Describes r)
    (hfast : ∀ m, S.fast m → k.frame.Result E.room σ n A m)
    (hslow : ∀ m, S.slow m → f.Answers E.room σ n A m) (h : ∀ l, Q () { k with slow := l }
      { S with
        fast := k.frame.Result E.room σ n A, slow := fun _ => False, exit := fun _ => False }) :
    Emits E (rejoin changes) k S Q := by
  unfold rejoin
  refine emits_bind (emits_hasExits fun waiting => ?_)
  cases waiting with
  | true => exact emits_bind (emits_stale)
  | false =>
    refine emits_bind (emits_label (s := .fast) (emits_bind (emits_frame ?_)))
    refine emits_bind (emits_emitAll (G := k.frame.Result E.room σ n A)
      hf.sound.target?_mergeCode ?_ fun l => ?_)
    · rintro m hm
      obtain ⟨w, r, ha, hans⟩ := hslow m hm
      obtain ⟨m', hr, hc⟩ := hans.runs_mergeCode hf (ht r _ ha)
      exact ⟨m', hr, r, _, ha, hc⟩
    refine emits_bind (emits_branch (s := .slow) (g := .always) (F := fun _ => False)
      (J := k.frame.Result E.room σ n A) (fun m hm => .inl ⟨Guard.trips_always m, hm⟩) ?_)
    refine emits_bind (emits_link (s := .fast) (F := k.frame.Result E.room σ n A) (J := S.jump)
      rfl (fun i m hi => hi) hfast ?_)
    refine (emits_complete (h l.next)).weaken ⟨fun _ => id, fun _ => id, fun m hm => ?_,
      fun _ _ => id, fun _ _ => id, fun _ _ => id⟩
    cases hm.1

/-- Both paths meet, and the result is in place. -/
theorem rejoin_emits (h : S.Pushed E σ A slow g n t k) (ht : ∀ r h, A.ok r h → t.Describes r) :
    Emits E (rejoin changes) k S fun _ k' S' => S'.Yields E σ A g n k' := by
  refine Emits.weaken ?_ h.within
  refine emits_rejoin h.replaces ht (fun _ => id) (fun m hm => hm.2)
    fun l => ⟨h.replaces.ends, ?_⟩
  exact Scene.within_of_fast (fun _ => id) fun _ _ => id

end AsmM

end FastPath
