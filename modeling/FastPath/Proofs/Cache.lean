import FastPath.Cache

/-!
# How inline caches grow

What a fresh cache learns is a function of the cases it is offered: the distinct ones, in order of
first appearance, as long as they are within the limit, and nothing once they are not. A
megamorphic cache has forgotten its cases, so the invariant of a run speaks of everything that was
offered (`CacheState.grown`) and not of the state alone.
-/

namespace FastPath

/-- The stages in the order of a cache's life. -/
def CacheStage.rank : CacheStage → Nat
  | speculative => 0
  | polymorphic => 1
  | megamorphic => 2

/-- What comes of a case that a cache is offered after others. -/
def LearnOutcome.following (limit : Nat) (seen : List CacheCase) (c : CacheCase) : LearnOutcome :=
  if limit < seen.eraseDups.length then megamorphic
  else if c ∈ seen then alreadyAttached
  else if seen.eraseDups.length < limit then attached
  else wentMegamorphic

namespace CacheState

/-- Offer cases one after another; gives the outcomes in order. -/
def learnAll (s : CacheState) (limit : Nat) : List CacheCase → List LearnOutcome × CacheState
  | [] => ([], s)
  | c :: cs =>
    let (outcome, s) := s.learn c limit
    let (outcomes, s) := s.learnAll limit cs
    (outcome :: outcomes, s)

/-- What a fresh cache becomes when it is offered some cases. -/
def grown (limit : Nat) (seen : List CacheCase) : CacheState :=
  if seen.eraseDups.length ≤ limit then ⟨seen.eraseDups, false, seen.eraseDups.length⟩
  else ⟨[], true, limit + 1⟩

variable (limit : Nat) {seen : List CacheCase} {c : CacheCase}

theorem eraseDups_concat :
    (seen ++ [c]).eraseDups = if c ∈ seen then seen.eraseDups else seen.eraseDups ++ [c] := by
  rw [List.eraseDups_append]
  by_cases hc : c ∈ seen <;> simp [List.removeAll, hc, List.eraseDups_cons]

/-- One more case: the answer and the new state depend only on the cases seen so far. -/
theorem learn_grown :
    (grown limit seen).learn c limit = (.following limit seen c, grown limit (seen ++ [c])) := by
  have hmem : seen.eraseDups.contains c ↔ c ∈ seen := by simp
  unfold LearnOutcome.following grown learn
  rw [eraseDups_concat]
  by_cases hc : c ∈ seen
  · grind
  · rcases Nat.lt_trichotomy seen.eraseDups.length limit with hn | hn | hn <;> grind

theorem learnAll_grown (seen cs : List CacheCase) : (grown limit seen).learnAll limit cs =
    (cs.mapIdx fun i c => .following limit (seen ++ cs.take i) c, grown limit (seen ++ cs)) := by
  induction cs generalizing seen with
  | nil => simp [learnAll]
  | cons c cs ih => simp [learnAll, learn_grown, ih, List.mapIdx_cons]

/-- A cache becomes megamorphic where it says so, and no stage comes back. -/
theorem learn_moves (s : CacheState) (c : CacheCase) :
    s.stage.rank ≤ (s.learn c limit).2.stage.rank ∧ (s.learn c limit).2.megamorphic.toNat =
      s.megamorphic.toNat + if (s.learn c limit).1 = .wentMegamorphic then 1 else 0 := by
  fun_cases learn s c limit <;> by_cases hcases : s.cases = [] <;>
    simp_all [stage, CacheStage.rank]

theorem learnAll_moves (s : CacheState) (cs : List CacheCase) :
    s.stage.rank ≤ (s.learnAll limit cs).2.stage.rank ∧
    (s.learnAll limit cs).2.megamorphic.toNat =
      s.megamorphic.toNat + (s.learnAll limit cs).1.count .wentMegamorphic := by
  induction cs generalizing s with
  | nil => simp [learnAll]
  | cons c cs ih =>
    have hstep := learn_moves limit s c
    have hrun := ih (s.learn c limit).2
    simp only [learnAll, List.count_cons, beq_iff_eq]
    omega

/-- A run of a fresh cache in closed form: each outcome by the cases before it, the state by the
distinct cases, one report of the megamorphic stage if they are too many, and no way back to an
earlier stage. -/
theorem learnAll_exact (limit : Nat) (cs : List CacheCase) :
    fresh.learnAll limit cs =
      (cs.mapIdx fun i c => .following limit (cs.take i) c, grown limit cs) ∧
    (fresh.learnAll limit cs).1.count .wentMegamorphic =
      (if cs.eraseDups.length ≤ limit then 0 else 1) ∧
    ∀ i, (fresh.learnAll limit (cs.take i)).2.stage.rank ≤
      (fresh.learnAll limit cs).2.stage.rank := by
  have hfresh : ∀ cs, fresh.learnAll limit cs =
      (cs.mapIdx fun i c => .following limit (cs.take i) c, grown limit cs) :=
    learnAll_grown limit []
  refine ⟨hfresh cs, ?_, fun i => ?_⟩
  · have hmoves := (learnAll_moves limit fresh cs).2
    have hmega : (grown limit cs).megamorphic.toNat =
        if cs.eraseDups.length ≤ limit then 0 else 1 := by
      unfold grown
      split <;> rfl
    rw [hfresh cs] at hmoves ⊢
    exact (Nat.zero_add _).symm.trans (hmoves.symm.trans hmega)
  · have hmoves := (learnAll_moves limit (grown limit (cs.take i)) (cs.drop i)).1
    rw [learnAll_grown, List.take_append_drop] at hmoves
    rwa [hfresh, hfresh]

end CacheState

end FastPath
