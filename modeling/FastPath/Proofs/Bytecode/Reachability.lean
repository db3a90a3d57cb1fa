import FastPath.Proofs.Bytecode.Flow

/-!
# The walk finds exactly what is reachable

A configuration is a pc together with a stack depth. Control starts at `(0, 0)` and follows
the taken edge of a jump and the fall-through edge of an instruction that does not end its
path; `Reaches` is the set of configurations it meets. The walk settles a depth for each pc
it visits and rejects a function at the first fault, so two things have to be shown:

* everything settled or still on the list is reachable (`Flow.Traced`), so that a rejection
  always points at a reachable fault and nothing is marked without a reason;
* what is settled at the end is closed under both edges (`Flow.Settled`), so that nothing
  reachable is missed.
-/

namespace FastPath.Bytecode

/-- The configurations that control meets, from an empty stack at the entry. -/
inductive Reaches (f : Function) : (pc depth : Nat) → Prop where
  | entry : Reaches f 0 0
  | taken {pc d t : Nat} {i : Instr} {e : Instr.StackEffect} (h : Reaches f pc d)
      (hi : f.code[pc]? = some i) (he : i.takenEffect? = some e)
      (ht : f.jumpTarget? pc = some t) (huses : e.uses ≤ d) :
      Reaches f t (d - e.uses + e.defs)
  | fall {pc d : Nat} {i : Instr} (h : Reaches f pc d) (hi : f.code[pc]? = some i)
      (hterm : i.isTerminator = false) (huses : i.stackEffect.uses ≤ d) :
      Reaches f (pc + 1) (d - i.stackEffect.uses + i.stackEffect.defs)

/-- What is wrong at a configuration: its instruction jumps out of the function, pops more
than the stack holds on an edge that control follows, or falls past the last instruction. -/
inductive Faulty (f : Function) (pc d : Nat) : Prop where
  | badTarget {i : Instr} (hi : f.code[pc]? = some i) (hjump : i.takenEffect?.isSome)
      (ht : f.jumpTarget? pc = none)
  | takenUnderflow {i : Instr} {e : Instr.StackEffect} (hi : f.code[pc]? = some i)
      (he : i.takenEffect? = some e) (huses : d < e.uses)
  | fallUnderflow {i : Instr} (hi : f.code[pc]? = some i) (hterm : i.isTerminator = false)
      (huses : d < i.stackEffect.uses)
  | fallsOff {i : Instr} (hi : f.code[pc]? = some i) (hterm : i.isTerminator = false)
      (hend : f.code.size ≤ pc + 1)

/-- Control never goes wrong, and every pc has one depth. -/
structure Regular (f : Function) : Prop where
  nonempty : 0 < f.code.size
  faultless : ∀ pc d, Reaches f pc d → ¬ Faulty f pc d
  agree : ∀ pc d d', Reaches f pc d → Reaches f pc d' → d = d'

namespace Flow

variable {f : Function} {a b : Flow} {work rest : List (Nat × Nat)} {pc d : Nat} {i : Instr}

/-- A backward jump lands on `pc`. -/
def isLoopHead (a : Flow) (pc : Nat) : Bool := a.loopHeads.getD pc false

/-- The tables describe the reachable configurations. -/
structure Describes (a : Flow) (f : Function) : Prop where
  depth : ∀ pc d, a.depth? pc = some d ↔ Reaches f pc d
  jumpTarget : ∀ t, a.isJumpTarget t ↔ ∃ pc d, Reaches f pc d ∧ f.jumpTarget? pc = some t
  loopHead : ∀ t, a.isLoopHead t ↔
    ∃ pc d, Reaches f pc d ∧ f.jumpTarget? pc = some t ∧ t ≤ pc
  maxDepth_attained : ∃ pc, Reaches f pc a.maxDepth
  le_maxDepth : ∀ pc d, Reaches f pc d → d ≤ a.maxDepth

/-! ### Edges of a visit -/

/-- Only an instruction with a taken edge has a target. -/
theorem takenEffect?_of_jumpTarget? {t : Nat} (hi : f.code[pc]? = some i)
    (ht : f.jumpTarget? pc = some t) : i.takenEffect?.isSome := by
  simp only [Function.jumpTarget?, hi, Option.bind_eq_bind, Option.bind_some,
    Option.bind_eq_some_iff] at ht
  obtain ⟨offset, hoffset, -⟩ := ht
  cases i with
  | goto _ | branch kind _ => rfl
  | _ => cases hoffset

variable {err : FlowError} {v : Visit}

theorem depthAfter_error {e : Instr.StackEffect} (h : depthAfter pc d e = .error err) :
    d < e.uses := by
  unfold depthAfter at h
  split at h
  · assumption
  · cases h

/-- A visit fails only at a fault. -/
theorem faulty_of_visit (hi : f.code[pc]? = some i) (h : visit f pc d i = .error err) :
    Faulty f pc d := by
  unfold visit at h
  cases htaken : takenEdge f pc d i with
  | error e =>
    unfold takenEdge at htaken
    split at htaken
    · cases htaken
    · rename_i effect heffect
      split at htaken
      · rename_i hnone
        exact .badTarget hi (by rw [heffect]; rfl) hnone
      · cases hafter : depthAfter pc d effect with
        | error e' => exact .takenUnderflow hi heffect (depthAfter_error hafter)
        | ok d' =>
          rw [hafter] at htaken
          cases htaken
  | ok taken =>
    cases hfall : fallEdge f pc d i with
    | ok fall =>
      rw [htaken, hfall] at h
      cases h
    | error e =>
      unfold fallEdge at hfall
      split at hfall
      · cases hfall
      · rename_i hterm
        have hterm' : i.isTerminator = false := by simpa using hterm
        split at hfall
        · rename_i e' hafter
          exact .fallUnderflow hi hterm' (depthAfter_error hafter)
        · split at hfall
          · cases hfall
          · rename_i hend
            exact .fallsOff hi hterm' (Nat.not_lt.1 hend)

/-- A visit follows edges of control only. -/
theorem reaches_of_visit (h : Reaches f pc d) (hi : f.code[pc]? = some i)
    (hv : visit f pc d i = .ok v) : ∀ c ∈ v.next, Reaches f c.1 c.2 := by
  obtain ⟨taken, fall, htaken, hfall, rfl⟩ := visit_ok hv
  intro c hc
  rcases List.mem_append.1 hc with hc | hc
  · rcases fallEdge_ok hfall with ⟨-, rfl⟩ | ⟨hterm, huses, -, rfl⟩
    · cases hc
    · obtain rfl := List.mem_singleton.1 hc
      exact .fall h hi hterm huses
  · rcases takenEdge_ok htaken with ⟨-, rfl⟩ | ⟨e, t, he, ht, huses, rfl⟩
    · cases hc
    · obtain rfl := List.mem_singleton.1 hc
      exact .taken h hi he ht huses

/-- A visit names the target of its jump. -/
theorem target_of_visit (hi : f.code[pc]? = some i) (hv : visit f pc d i = .ok v) :
    v.target = f.jumpTarget? pc := by
  obtain ⟨taken, fall, htaken, -, rfl⟩ := visit_ok hv
  rcases takenEdge_ok htaken with ⟨hnone, rfl⟩ | ⟨e, t, -, ht, -, rfl⟩
  · cases ht : f.jumpTarget? pc with
    | none => rfl
    | some t =>
      have := takenEffect?_of_jumpTarget? hi ht
      rw [hnone] at this
      cases this
  · exact ht.symm

/-! ### What the walk records is reachable -/

/-- Everything settled and everything on the list is reachable, and the tables hold what the
settled pcs contribute. -/
structure Traced (f : Function) (work : List (Nat × Nat)) (a : Flow) : Prop where
  depths : a.depths.size = f.code.size
  targets : a.jumpTargets.size = f.code.size
  loops : a.loopHeads.size = f.code.size
  settled : ∀ pc d, a.depth? pc = some d → Reaches f pc d
  pending : ∀ c ∈ work, Reaches f c.1 c.2
  jumpTarget : ∀ t, a.isJumpTarget t ↔
    ∃ pc d, a.depth? pc = some d ∧ f.jumpTarget? pc = some t
  loopHead : ∀ t, a.isLoopHead t ↔
    ∃ pc d, a.depth? pc = some d ∧ f.jumpTarget? pc = some t ∧ t ≤ pc
  maxDepth : ∃ pc, Reaches f pc a.maxDepth

/-- A loop head is the target of a backward jump. -/
theorem isLoopHead_record (n : Nat) (ht : ∀ t, v.target = some t → t < a.loopHeads.size) :
    (a.record pc d v).isLoopHead n = ((v.target = some n && n ≤ pc) || a.isLoopHead n) := by
  cases hv : v.target with
  | none => simp [record, mark, isLoopHead, hv]
  | some t =>
    have hlt := ht t hv
    by_cases hback : t ≤ pc
    · simp only [record, mark, isLoopHead, hv, hback, if_true, Array.getD_eq_getD_getElem?,
        Array.getElem?_setIfInBounds]
      by_cases hn : t = n
      · subst hn
        simp [hlt, hback]
      · simp [hn]
    · by_cases hn : t = n
      · subst hn
        simp [record, mark, isLoopHead, hv, hback]
      · simp [record, mark, isLoopHead, hv, hback, hn]

/-- A maximum is one of the numbers it is taken of. -/
theorem foldl_max_attained (l : List (Nat × Nat)) (n : Nat) :
    l.foldl (fun m c => max m c.2) n = n ∨ ∃ c ∈ l, l.foldl (fun m c => max m c.2) n = c.2 := by
  induction l generalizing n with
  | nil => exact .inl rfl
  | cons c l ih =>
    rcases ih (max n c.2) with h | ⟨c', hc', h⟩
    · rcases Nat.le_total n c.2 with hle | hle
      · exact .inr ⟨c, List.mem_cons_self, by rw [List.foldl_cons, h, Nat.max_eq_right hle]⟩
      · exact .inl (by rw [List.foldl_cons, h, Nat.max_eq_left hle])
    · exact .inr ⟨c', List.mem_cons_of_mem c hc', h⟩

/-- The depth that a visit records was recorded before or is met by the visit. -/
theorem maxDepth_record_attained (a : Flow) (pc d : Nat) (v : Visit) :
    (a.record pc d v).maxDepth = a.maxDepth ∨ (a.record pc d v).maxDepth = d ∨
      ∃ c ∈ v.next, (a.record pc d v).maxDepth = c.2 := by
  rcases foldl_max_attained v.next (max a.maxDepth d) with h | ⟨c, hc, h⟩
  · rcases Nat.le_total a.maxDepth d with hle | hle
    · exact .inr (.inl (h.trans (Nat.max_eq_right hle)))
    · exact .inl (h.trans (Nat.max_eq_left hle))
  · exact .inr (.inr ⟨c, hc, h⟩)

/-- The analysis starts with nothing but the entry. -/
theorem unvisited_traced (f : Function) : (unvisited f.code.size).Traced f [(0, 0)] where
  depths := by simp [unvisited]
  targets := by simp [unvisited]
  loops := by simp [unvisited]
  settled pc d h := by
    simp only [unvisited, depth?, Array.getElem?_replicate] at h
    split at h <;> cases h
  pending c hc := by
    obtain rfl := List.mem_singleton.1 hc
    exact .entry
  jumpTarget t := by
    simp only [unvisited, isJumpTarget, depth?, Array.getD_eq_getD_getElem?,
      Array.getElem?_replicate]
    constructor
    · intro h
      split at h <;> cases h
    · rintro ⟨pc, d, h, -⟩
      split at h <;> cases h
  loopHead t := by
    simp only [unvisited, isLoopHead, depth?, Array.getD_eq_getD_getElem?,
      Array.getElem?_replicate]
    constructor
    · intro h
      split at h <;> cases h
    · rintro ⟨pc, d, h, -⟩
      split at h <;> cases h
  maxDepth := ⟨0, .entry⟩

theorem set_eq_setIfInBounds (hpc : pc < a.depths.size) :
    a.depths.set pc (some d) = a.depths.setIfInBounds pc (some d) := by
  simp [Array.setIfInBounds, hpc]

/-- A configuration that agrees with what is settled can be dropped. -/
theorem Traced.drop (h : a.Traced f ((pc, d) :: rest)) : a.Traced f rest :=
  { h with pending := fun c hc => h.pending c (List.mem_cons_of_mem _ hc) }

/-- A visit keeps the trace: it settles a reachable pc and lists what control meets next. -/
theorem Traced.record (h : a.Traced f ((pc, d) :: rest)) (hpc : pc < a.depths.size)
    (hnone : a.depth? pc = none) (hi : f.code[pc]? = some i) (hv : visit f pc d i = .ok v) :
    (a.record pc d v).Traced f (v.next ++ rest) := by
  have hreach : Reaches f pc d := h.pending (pc, d) List.mem_cons_self
  have hnext := reaches_of_visit hreach hi hv
  have htarget := target_of_visit hi hv
  have hdepth := fun n => depth?_record (d := d) (a := a) (v := v) hpc n
  have hlt : ∀ t, v.target = some t → t < f.code.size := fun t ht =>
    jumpTarget?_lt (htarget ▸ ht)
  -- the settled pcs are the old ones and the one just visited
  have hsettled : ∀ p : Nat → Prop, (∃ n d', (a.record pc d v).depth? n = some d' ∧ p n) ↔
      (p pc ∨ ∃ n d', a.depth? n = some d' ∧ p n) := by
    intro p
    constructor
    · rintro ⟨n, d', hn, hp⟩
      rw [hdepth] at hn
      split at hn
      · rename_i heq
        exact .inl (heq ▸ hp)
      · exact .inr ⟨n, d', hn, hp⟩
    · rintro (hp | ⟨n, d', hn, hp⟩)
      · exact ⟨pc, d, by rw [hdepth, if_pos rfl], hp⟩
      · refine ⟨n, d', ?_, hp⟩
        rw [hdepth, if_neg]
        · exact hn
        · rintro rfl
          rw [hnone] at hn
          cases hn
  refine ⟨?_, ?_, ?_, fun n d' hn => ?_, fun c hc => ?_, fun t => ?_, fun t => ?_, ?_⟩
  · simpa [Flow.record, mark] using h.depths
  · simp only [Flow.record, mark]
    split <;> simpa using h.targets
  · simp only [Flow.record, mark]
    split
    · split <;> simpa using h.loops
    · simpa using h.loops
  · rw [hdepth] at hn
    split at hn
    · rename_i heq
      cases hn
      exact heq ▸ hreach
    · exact h.settled n d' hn
  · rcases List.mem_append.1 hc with hc | hc
    · exact hnext c hc
    · exact h.pending c (List.mem_cons_of_mem _ hc)
  · rw [isJumpTarget_record t (fun t ht => h.targets ▸ hlt t ht),
      hsettled fun n => f.jumpTarget? n = some t, ← h.jumpTarget, ← htarget]
    simp
  · rw [isLoopHead_record t (fun t ht => h.loops ▸ hlt t ht),
      hsettled fun n => f.jumpTarget? n = some t ∧ t ≤ n, ← h.loopHead, ← htarget]
    simp
  · rcases maxDepth_record_attained a pc d v with hmax | hmax | ⟨c, hc, hmax⟩
    · exact hmax ▸ h.maxDepth
    · exact ⟨pc, by rw [hmax]; exact hreach⟩
    · exact ⟨c.1, by rw [hmax]; exact hnext c hc⟩

/-- When the walk is over, what it settled is reachable. -/
theorem walk_traced (h : a.Traced f work) (hw : walk f work a = .ok b) : b.Traced f [] := by
  fun_induction walk f work a with
  | case1 a =>
    cases hw
    exact h
  | case2 a pc rest hpc expected hd ih => exact ih h.drop hw
  | case6 a pc d rest hpc hd i hi v hv ih =>
    rw [set_eq_setIfInBounds hpc] at hw ih
    exact ih (h.record hpc ((depth?_eq hpc).trans hd) hi hv) hw
  | _ => cases hw

/-! ### Regular functions are accepted -/

/-- Control stays inside a regular function. -/
theorem lt_of_reaches (hf : Regular f) (h : Reaches f pc d) : pc < f.code.size := by
  cases h with
  | entry => exact hf.nonempty
  | taken _ _ _ ht _ => exact jumpTarget?_lt ht
  | fall h hi hterm _ =>
    exact Nat.lt_of_not_le fun hend => hf.faultless _ _ h (.fallsOff hi hterm hend)

/-- The walk over a regular function never fails. -/
theorem walk_succeeds (hf : Regular f) (h : a.Traced f work) : ∃ b, walk f work a = .ok b := by
  fun_induction walk f work a with
  | case1 a => exact ⟨a, rfl⟩
  | case2 a pc rest hpc expected hd ih => exact ih h.drop
  | case3 a pc d rest hpc expected hd hne =>
    have hsettled := h.settled pc expected ((depth?_eq hpc).trans hd)
    exact absurd (hf.agree pc _ _ hsettled (h.pending (pc, d) List.mem_cons_self)) hne
  | case4 a pc d rest hpc hd hcode =>
    rw [h.depths] at hpc
    rw [Array.getElem?_eq_getElem hpc] at hcode
    cases hcode
  | case5 a pc d rest hpc hd i hi e he =>
    have hreach := h.pending (pc, d) List.mem_cons_self
    exact absurd (faulty_of_visit hi he) (hf.faultless pc d hreach)
  | case6 a pc d rest hpc hd i hi v hv ih =>
    rw [set_eq_setIfInBounds hpc] at ih ⊢
    exact ih (h.record hpc ((depth?_eq hpc).trans hd) hi hv)
  | case7 a pc d rest hpc =>
    rw [h.depths] at hpc
    exact absurd (lt_of_reaches hf (h.pending (pc, d) List.mem_cons_self)) hpc

/-! ### Nothing reachable is missed -/

/-- Whatever control meets is settled: the entry is, and what is settled is closed under both
edges. -/
theorem Settled.of_reaches (hs : a.Settled f []) (h0 : a.depth? 0 = some 0)
    (h : Reaches f pc d) : a.depth? pc = some d := by
  induction h with
  | entry => exact h0
  | taken _ hi he ht _ ih =>
    obtain ⟨t', ht', -, -, hd⟩ := hs.taken ih hi he
    obtain rfl := Option.some.inj (ht'.symm.trans ht)
    exact hd
  | fall _ hi hterm _ ih => exact (hs.fall ih hi hterm).2

/-- A settled pc has no fault. -/
theorem Settled.not_faulty (hs : a.Settled f []) (hd : a.depth? pc = some d) :
    ¬ Faulty f pc d := by
  intro hfault
  cases hfault with
  | @badTarget i hi hjump ht =>
    obtain ⟨e, he⟩ := Option.isSome_iff_exists.1 hjump
    obtain ⟨t, ht', -⟩ := hs.taken hd hi he
    rw [ht] at ht'
    cases ht'
  | takenUnderflow hi he huses =>
    obtain ⟨-, -, hle, -⟩ := hs.taken hd hi he
    exact absurd huses (Nat.not_lt.2 hle)
  | fallUnderflow hi hterm huses => exact absurd huses (Nat.not_lt.2 (hs.fall hd hi hterm).1)
  | fallsOff hi hterm hend =>
    obtain ⟨-, hnext⟩ := hs.fall hd hi hterm
    rw [depth?, Array.getElem?_eq_none (hs.depths ▸ hend)] at hnext
    cases hnext

/-- A function that the analysis accepts is regular, and the result describes it. -/
theorem analyze_describes (h : analyze f = .ok a) : Regular f ∧ a.Describes f := by
  obtain ⟨hs, h0⟩ := analyze_settled h
  have hne : ¬ f.code.size = 0 := by
    intro h'
    simp [analyze, h'] at h
  have ht : a.Traced f [] := by
    simp only [analyze, hne, if_false] at h
    exact walk_traced (unvisited_traced f) h
  have hreach : ∀ pc d, a.depth? pc = some d ↔ Reaches f pc d := fun pc d =>
    ⟨ht.settled pc d, hs.of_reaches h0⟩
  refine ⟨⟨Nat.pos_of_ne_zero hne, fun pc d hr => hs.not_faulty (hs.of_reaches h0 hr),
    fun pc d d' hr hr' => ?_⟩, hreach, fun t => ?_, fun t => ?_, ht.maxDepth, fun pc d hr => ?_⟩
  · exact Option.some.inj ((hs.of_reaches h0 hr).symm.trans (hs.of_reaches h0 hr'))
  · simp only [ht.jumpTarget, hreach]
  · simp only [ht.loopHead, hreach]
  · exact (hs.visited pc d (hs.of_reaches h0 hr)).1

/-- **The analysis computes exactly the reachable depths.** It succeeds exactly on the
functions that are not empty, have no reachable fault and no pc that is reachable at two
depths; its tables then hold the reachable configurations, the pcs that reachable jumps land
on, those that backward ones land on, and the largest reachable depth. -/
theorem analyze_exact (f : Function) : ((∃ a, analyze f = .ok a) ↔ Regular f) ∧
    ∀ a, analyze f = .ok a → a.Describes f := by
  refine ⟨⟨fun ⟨a, h⟩ => (analyze_describes h).1, fun hf => ?_⟩,
    fun a h => (analyze_describes h).2⟩
  have hne : f.code.size ≠ 0 := Nat.ne_of_gt hf.nonempty
  simp only [analyze, hne, if_false]
  exact walk_succeeds hf (unvisited_traced f)

/-- The walk goes on from an instruction that it meets for the first time. -/
theorem walk_of_unseen (ha : a.depths[pc]? = some none) (hi : f.code[pc]? = some i)
    (hv : visit f pc d i = .ok v) :
    walk f ((pc, d) :: rest) a = walk f (v.next ++ rest)
      ({ a with depths := a.depths.setIfInBounds pc (some d) }.mark pc d v) := by
  obtain ⟨hlt, hd⟩ := Array.getElem?_eq_some_iff.1 ha
  rw [walk, dif_pos hlt]
  split
  · next expected he =>
    rw [hd] at he
    cases he
  · rw [hi]
    simp only [hv, Array.setIfInBounds, hlt, dite_true]

theorem walk_of_seen (ha : a.depths[pc]? = some (some d)) :
    walk f ((pc, d) :: rest) a = walk f rest a := by
  obtain ⟨hlt, hd⟩ := Array.getElem?_eq_some_iff.1 ha
  rw [walk, dif_pos hlt]
  split
  · next expected he =>
    rw [hd] at he
    cases he
    rw [if_pos rfl]
  · next he =>
    rw [hd] at he
    cases he

/-- A loop whose condition is a conjunction: the two edges of the `and` leave different
depths. -/
def conjunctionLoop : Function :=
  { Function.empty none 0 0 with
    code := #[.push (.int32 1), .branch .and 2, .push (.int32 5), .branch .ifTruthy (-3),
      .returnUndefined] }

/-- What the walk finds in that loop. -/
def conjunctionFlow : Flow where
  depths := #[some 0, some 1, some 0, some 1, some 0]
  jumpTargets := #[true, false, false, true, false]
  loopHeads := #[true, false, false, false, false]
  maxDepth := 1

theorem analyze_exact_conjunctionLoop : analyze conjunctionLoop = .ok conjunctionFlow ∧
    conjunctionFlow.Describes conjunctionLoop := by
  have h : analyze conjunctionLoop = .ok conjunctionFlow :=
    calc analyze conjunctionLoop
      _ = walk conjunctionLoop [(0, 0)] (unvisited 5) := rfl
      _ = walk conjunctionLoop [(1, 1)]
          { unvisited 5 with
            depths := #[some 0, none, none, none, none]
            maxDepth := 1 } :=
        walk_of_unseen (v := ⟨none, [(1, 1)]⟩) rfl rfl rfl
      _ = walk conjunctionLoop [(2, 0), (3, 1)]
          { conjunctionFlow with
            depths := #[some 0, some 1, none, none, none]
            jumpTargets := #[false, false, false, true, false]
            loopHeads := Array.replicate 5 false } :=
        walk_of_unseen (v := ⟨some 3, [(2, 0), (3, 1)]⟩) rfl rfl rfl
      _ = walk conjunctionLoop [(3, 1), (3, 1)]
          { conjunctionFlow with
            depths := #[some 0, some 1, some 0, none, none]
            jumpTargets := #[false, false, false, true, false]
            loopHeads := Array.replicate 5 false } :=
        walk_of_unseen (v := ⟨none, [(3, 1)]⟩) rfl rfl rfl
      _ = walk conjunctionLoop [(4, 0), (0, 0), (3, 1)]
          { conjunctionFlow with
            depths := #[some 0, some 1, some 0, some 1, none] } :=
        walk_of_unseen (v := ⟨some 0, [(4, 0), (0, 0)]⟩) rfl rfl rfl
      _ = walk conjunctionLoop [(0, 0), (3, 1)] conjunctionFlow :=
        walk_of_unseen (v := ⟨none, []⟩) rfl rfl rfl
      _ = walk conjunctionLoop [(3, 1)] conjunctionFlow := walk_of_seen rfl
      _ = walk conjunctionLoop [] conjunctionFlow := walk_of_seen rfl
      _ = .ok conjunctionFlow := by rw [walk]
  exact ⟨h, (analyze_exact conjunctionLoop).2 conjunctionFlow h⟩

end Flow

end FastPath.Bytecode
