import FastPath.Bytecode.Flow

/-!
# What the walk over a function finds

The walk settles the depth of a pc once, when it visits the instruction there, and puts what
follows on its list. So at any time, what follows a settled pc is settled itself or still on
the list, and when the list is empty the settled depths are closed under control flow:
every instruction that is reached finds its operands, every jump lands on a marked pc, and
the depths on both ends of an edge agree.
-/

namespace FastPath.Bytecode

namespace Flow

variable {f : Function} {a b : Flow} {work : List (Nat × Nat)} {pc d : Nat}

/-- Every settled pc has been visited, and what follows it is settled or on the list. -/
structure Settled (f : Function) (work : List (Nat × Nat)) (a : Flow) : Prop where
  depths : a.depths.size = f.code.size
  targets : a.jumpTargets.size = f.code.size
  visited : ∀ pc d, a.depth? pc = some d → d ≤ a.maxDepth ∧ ∃ i v, f.code[pc]? = some i ∧
    visit f pc d i = .ok v ∧ (∀ t, v.target = some t → a.isJumpTarget t) ∧
    ∀ c ∈ v.next, a.depth? c.1 = some c.2 ∨ c ∈ work

/-- What is settled stays settled, and what is marked stays marked. -/
structure Refines (a b : Flow) : Prop where
  depth : ∀ pc d, a.depth? pc = some d → b.depth? pc = some d
  target : ∀ pc, a.isJumpTarget pc → b.isJumpTarget pc
  maxDepth : a.maxDepth ≤ b.maxDepth

theorem Refines.refl (a : Flow) : a.Refines a :=
  ⟨fun _ _ => id, fun _ => id, Nat.le_refl _⟩

theorem Refines.trans {c : Flow} (h : a.Refines b) (h' : b.Refines c) : a.Refines c :=
  ⟨fun pc d hd => h'.depth pc d (h.depth pc d hd), fun pc ht => h'.target pc (h.target pc ht),
    Nat.le_trans h.maxDepth h'.maxDepth⟩

/-! ### One visit -/

/-- What a visit records. -/
def record (a : Flow) (pc d : Nat) (v : Visit) : Flow :=
  { a with depths := a.depths.setIfInBounds pc (some d) }.mark pc d v

variable {v : Visit} {rest : List (Nat × Nat)}

theorem depth?_record (hpc : pc < a.depths.size) (n : Nat) :
    (a.record pc d v).depth? n = if pc = n then some d else a.depth? n := by
  simp only [record, mark, depth?, Array.getElem?_setIfInBounds]
  by_cases hn : pc = n
  · subst hn
    simp [hpc]
  · simp [hn]

theorem isJumpTarget_record (n : Nat) (ht : ∀ t, v.target = some t →
    t < a.jumpTargets.size) :
    (a.record pc d v).isJumpTarget n = (v.target = some n || a.isJumpTarget n) := by
  cases hv : v.target with
  | none => simp [record, mark, isJumpTarget, hv]
  | some t =>
    have hlt := ht t hv
    simp only [record, mark, isJumpTarget, hv, Array.getD_eq_getD_getElem?,
      Array.getElem?_setIfInBounds]
    by_cases hn : t = n
    · subst hn
      simp [hlt]
    · simp [hn]

theorem le_foldl_max (l : List (Nat × Nat)) (n : Nat) :
    n ≤ l.foldl (fun m c => max m c.2) n := by
  induction l generalizing n with
  | nil => exact Nat.le_refl n
  | cons c l ih => exact Nat.le_trans (Nat.le_max_left n c.2) (ih _)

theorem maxDepth_record (a : Flow) (pc d : Nat) (v : Visit) :
    a.maxDepth ≤ (a.record pc d v).maxDepth ∧ d ≤ (a.record pc d v).maxDepth :=
  have h := le_foldl_max v.next (max a.maxDepth d)
  ⟨Nat.le_trans (Nat.le_max_left _ _) h, Nat.le_trans (Nat.le_max_right _ _) h⟩

/-- A jump leads into the function. -/
theorem jumpTarget?_lt {n t : Nat} (h : f.jumpTarget? n = some t) : t < f.code.size := by
  simp only [Function.jumpTarget?, Option.bind_eq_bind, Option.bind_eq_some_iff] at h
  obtain ⟨i, _, offset, _, target, _, htarget⟩ := h
  split at htarget
  · cases htarget
    assumption
  · cases htarget

/-- The edges that a visit follows. -/
theorem visit_ok {i : Instr} (h : visit f pc d i = .ok v) :
    ∃ taken fall, takenEdge f pc d i = .ok taken ∧ fallEdge f pc d i = .ok fall ∧
      v = ⟨taken.map (·.1), fall.toList ++ taken.toList⟩ := by
  unfold visit at h
  cases htaken : takenEdge f pc d i with
  | error e =>
    rw [htaken] at h
    cases h
  | ok taken =>
    cases hfall : fallEdge f pc d i with
    | error e =>
      rw [htaken, hfall] at h
      cases h
    | ok fall =>
      rw [htaken, hfall] at h
      cases h
      exact ⟨taken, fall, rfl, rfl, rfl⟩

/-- Where a branch leads, with the depth there. -/
theorem takenEdge_ok {i : Instr} {taken : Option (Nat × Nat)}
    (h : takenEdge f pc d i = .ok taken) :
    (i.takenEffect? = none ∧ taken = none) ∨
      ∃ e t, i.takenEffect? = some e ∧ f.jumpTarget? pc = some t ∧ e.uses ≤ d ∧
        taken = some (t, d - e.uses + e.defs) := by
  unfold takenEdge at h
  split at h
  · rename_i heffect
    cases h
    exact .inl ⟨heffect, rfl⟩
  · rename_i e heffect
    split at h
    · cases h
    · rename_i t ht
      unfold depthAfter at h
      split at h
      · cases h
      · rename_i huses
        cases h
        exact .inr ⟨e, t, heffect, ht, Nat.not_lt.1 huses, rfl⟩

/-- Where control falls through, with the depth there. -/
theorem fallEdge_ok {i : Instr} {fall : Option (Nat × Nat)} (h : fallEdge f pc d i = .ok fall) :
    (i.isTerminator ∧ fall = none) ∨ (i.isTerminator = false ∧ i.stackEffect.uses ≤ d ∧
      pc + 1 < f.code.size ∧
      fall = some (pc + 1, d - i.stackEffect.uses + i.stackEffect.defs)) := by
  unfold fallEdge depthAfter at h
  split at h
  · rename_i hterm
    cases h
    exact .inl ⟨hterm, rfl⟩
  · rename_i hterm
    by_cases huses : d < i.stackEffect.uses
    · simp [huses] at h
    · simp only [huses, if_false] at h
      split at h
      · rename_i hlt
        cases h
        exact .inr ⟨by simpa using hterm, Nat.not_lt.1 huses, hlt, rfl⟩
      · cases h

/-! ### The walk -/

/-- A visit settles its pc and leaves the rest of the list and what follows to do. -/
theorem Settled.record {i : Instr} (h : a.Settled f ((pc, d) :: rest)) (hpc : pc < a.depths.size)
    (hnone : a.depth? pc = none) (hi : f.code[pc]? = some i) (hv : visit f pc d i = .ok v) :
    (a.record pc d v).Settled f (v.next ++ rest) ∧ a.Refines (a.record pc d v) := by
  obtain ⟨taken, fall, htaken, hfall, rfl⟩ := visit_ok hv
  have htarget : ∀ t, taken.map (·.1) = some t → t < a.jumpTargets.size := by
    intro t ht
    rcases takenEdge_ok htaken with ⟨_, rfl⟩ | ⟨e, t', _, ht', _, rfl⟩
    · cases ht
    · cases ht
      rw [h.targets]
      exact jumpTarget?_lt ht'
  have hmax := maxDepth_record a pc d ⟨taken.map (·.1), fall.toList ++ taken.toList⟩
  have hmark : ∀ n, (a.record pc d ⟨taken.map (·.1), fall.toList ++ taken.toList⟩).isJumpTarget n =
      ((⟨taken.map (·.1), fall.toList ++ taken.toList⟩ : Visit).target = some n ||
        a.isJumpTarget n) := fun n => isJumpTarget_record n htarget
  have hdepth := fun n => depth?_record (d := d) (a := a)
    (v := ⟨taken.map (·.1), fall.toList ++ taken.toList⟩) hpc n
  have hrefines : a.Refines (a.record pc d ⟨taken.map (·.1), fall.toList ++ taken.toList⟩) := by
    refine ⟨fun n d' hn => ?_, fun n hn => ?_, hmax.1⟩
    · rw [hdepth, if_neg]
      · exact hn
      · rintro rfl
        rw [hnone] at hn
        cases hn
    · rw [hmark, hn, Bool.or_true]
  refine ⟨⟨?_, ?_, fun n d' hn => ?_⟩, hrefines⟩
  · simpa [Flow.record, mark] using h.depths
  · simp only [Flow.record, mark]
    split <;> simpa using h.targets
  · rw [hdepth] at hn
    split at hn
    · rename_i heq
      subst heq
      cases hn
      refine ⟨hmax.2, i, _, hi, hv, fun t ht => ?_, fun c hc => .inr (List.mem_append_left _ hc)⟩
      rw [hmark, ht]
      simp
    · obtain ⟨hle, i', v', hi', hv', htargets, hnext⟩ := h.visited n d' hn
      refine ⟨Nat.le_trans hle hmax.1, i', v', hi', hv',
        fun t ht => hrefines.target t (htargets t ht), fun c hc => ?_⟩
      rcases hnext c hc with hset | hmem
      · exact .inl (hrefines.depth _ _ hset)
      · rcases List.mem_cons.1 hmem with rfl | hmem
        · left
          rw [hdepth, if_pos rfl]
        · exact .inr (List.mem_append_right _ hmem)

/-- A configuration that agrees with what is settled can be dropped. -/
theorem Settled.drop (h : a.Settled f ((pc, d) :: rest)) (hd : a.depth? pc = some d) :
    a.Settled f rest := by
  refine ⟨h.depths, h.targets, fun n d' hn => ?_⟩
  obtain ⟨hle, i, v, hi, hv, htargets, hnext⟩ := h.visited n d' hn
  refine ⟨hle, i, v, hi, hv, htargets, fun c hc => ?_⟩
  rcases hnext c hc with hset | hmem
  · exact .inl hset
  · rcases List.mem_cons.1 hmem with rfl | hmem
    · exact .inl hd
    · exact .inr hmem

theorem depth?_eq (hpc : pc < a.depths.size) : a.depth? pc = a.depths[pc] := by
  simp [depth?, hpc]

/-- When the walk is over everything on the list is settled. -/
theorem walk_settled (h : a.Settled f work) (hw : walk f work a = .ok b) :
    b.Settled f [] ∧ a.Refines b ∧ ∀ c ∈ work, b.depth? c.1 = some c.2 := by
  fun_induction walk f work a with
  | case1 a =>
    cases hw
    exact ⟨h, .refl b, fun c hc => nomatch hc⟩
  | case2 a pc rest hpc expected hd ih =>
    have hset : a.depth? pc = some expected := (depth?_eq hpc).trans hd
    obtain ⟨hs, hr, hall⟩ := ih (h.drop hset) hw
    refine ⟨hs, hr, fun c hc => ?_⟩
    rcases List.mem_cons.1 hc with rfl | hc
    · exact hr.depth _ _ hset
    · exact hall c hc
  | case6 a pc d rest hpc hd i hi v hv ih =>
    have hnone : a.depth? pc = none := (depth?_eq hpc).trans hd
    have hset : a.depths.set pc (some d) = a.depths.setIfInBounds pc (some d) := by
      simp [Array.setIfInBounds, hpc]
    rw [hset] at hw ih
    obtain ⟨hrec, href⟩ := h.record hpc hnone hi hv
    obtain ⟨hs, hr, hall⟩ := ih hrec hw
    refine ⟨hs, href.trans hr, fun c hc => ?_⟩
    rcases List.mem_cons.1 hc with rfl | hc
    · refine hr.depth _ _ ?_
      change (a.record pc d v).depth? pc = some d
      rw [depth?_record hpc, if_pos rfl]
    · exact hall c (List.mem_append_right _ hc)
  | _ => cases hw

theorem unvisited_settled (f : Function) (work : List (Nat × Nat)) :
    (unvisited f.code.size).Settled f work := by
  refine ⟨by simp [unvisited], by simp [unvisited], fun pc d h => ?_⟩
  simp only [unvisited, depth?, Array.getElem?_replicate] at h
  split at h <;> cases h

/-- **The analysis finds depths that are closed under control flow**, from an empty stack at
the entry. -/
theorem analyze_settled (h : analyze f = .ok a) : a.Settled f [] ∧ a.depth? 0 = some 0 := by
  unfold analyze at h
  split at h
  · cases h
  · obtain ⟨hs, -, hall⟩ := walk_settled (unvisited_settled f _) h
    exact ⟨hs, hall (0, 0) (List.mem_singleton.2 rfl)⟩

/-! ### The edges of a reachable instruction -/

variable {i : Instr}

/-- Falling through an instruction finds its operands and leads to a settled pc. -/
theorem Settled.fall (h : a.Settled f []) (hd : a.depth? pc = some d) (hi : f.code[pc]? = some i)
    (hterm : i.isTerminator = false) : i.stackEffect.uses ≤ d ∧
      a.depth? (pc + 1) = some (d - i.stackEffect.uses + i.stackEffect.defs) := by
  obtain ⟨-, i', v, hi', hv, -, hnext⟩ := h.visited pc d hd
  obtain rfl : i' = i := Option.some.inj (hi'.symm.trans hi)
  obtain ⟨taken, fall, -, hfall, rfl⟩ := visit_ok hv
  rcases fallEdge_ok hfall with ⟨ht, -⟩ | ⟨-, huses, -, rfl⟩
  · rw [hterm] at ht
    cases ht
  · refine ⟨huses, ?_⟩
    rcases hnext _ (List.mem_append_left _ (List.mem_singleton.2 rfl)) with hset | hmem
    · exact hset
    · cases hmem

/-- A jump finds its operands and leads to a settled pc that is marked. -/
theorem Settled.taken (h : a.Settled f []) (hd : a.depth? pc = some d)
    (hi : f.code[pc]? = some i) {e : Instr.StackEffect} (he : i.takenEffect? = some e) :
    ∃ t, f.jumpTarget? pc = some t ∧ e.uses ≤ d ∧ a.isJumpTarget t ∧
      a.depth? t = some (d - e.uses + e.defs) := by
  obtain ⟨-, i', v, hi', hv, htargets, hnext⟩ := h.visited pc d hd
  obtain rfl : i' = i := Option.some.inj (hi'.symm.trans hi)
  obtain ⟨taken, fall, htaken, -, rfl⟩ := visit_ok hv
  rcases takenEdge_ok htaken with ⟨hnone, -⟩ | ⟨e', t, he', ht, huses, rfl⟩
  · rw [he] at hnone
    cases hnone
  · obtain rfl : e' = e := Option.some.inj (he'.symm.trans he)
    refine ⟨t, ht, huses, htargets t rfl, ?_⟩
    rcases hnext (t, d - e'.uses + e'.defs)
      (List.mem_append_right _ (List.mem_singleton.2 rfl)) with
      hset | hmem
    · exact hset
    · cases hmem

end Flow

end FastPath.Bytecode
