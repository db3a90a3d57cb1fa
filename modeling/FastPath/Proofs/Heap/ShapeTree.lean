import FastPath.Heap.Shape

/-!
# The tree of shapes

A shape is known by the way that leads to it from the root, and an edge is made once. So two
shapes with the same names are one, however the calls that made the tree were interleaved.
-/

namespace FastPath

/-! ### Last positions -/

section LastIndex

variable {names : Array StrId} {n : StrId} {i size : Nat}

theorem lastIndex?_some (h : lastIndex? names n size = some i) : names[i]? = some n := by
  induction size with
  | zero => cases h
  | succ size ih =>
    rw [lastIndex?] at h
    split at h
    · next hn => exact Option.some.inj h ▸ hn
    · exact ih h

theorem not_mem_of_lastIndex? (h : lastIndex? names n size = none) :
    ∀ i < size, names[i]? ≠ some n := by
  induction size with
  | zero => exact fun _ hi => absurd hi (Nat.not_lt_zero _)
  | succ size ih =>
    rw [lastIndex?] at h
    split at h
    · cases h
    · next hn =>
      intro i hi
      rcases Nat.lt_succ_iff_lt_or_eq.1 hi with hi | rfl
      · exact ih h i hi
      · exact hn

theorem le_lastIndex? {j : Nat} (h : lastIndex? names n size = some i) (hj : j < size)
    (hn : names[j]? = some n) : j ≤ i := by
  induction size with
  | zero => cases h
  | succ size ih =>
    rw [lastIndex?] at h
    split at h
    · exact Option.some.inj h ▸ Nat.le_of_lt_succ hj
    · next hne =>
      refine ih h (Nat.lt_of_le_of_ne (Nat.le_of_lt_succ hj) ?_)
      rintro rfl
      exact hne hn

end LastIndex

namespace Shapes

variable {t t' : Shapes} {s s' : ShapeId} {k : StrId} {names : Array StrId}

theorem get?_lt (h : t.get? s = some names) : s < t.size := by
  obtain ⟨_, hl, -⟩ := Option.map_eq_some_iff.1 h
  exact (Array.getElem?_eq_some_iff.1 hl).1

theorem get?_eq (hs : s < t.size) : t.get? s = some (t.keys s) := by
  have hsome : t.get? s = some t.layouts[s].keys :=
    congrArg (Option.map _) (Array.getElem?_eq_getElem hs)
  rw [keys, hsome]
  rfl

theorem keys_of_get? (h : t.get? s = some names) : t.keys s = names := by
  rw [keys, h]
  rfl

theorem lookup?_eq (t : Shapes) (s : ShapeId) (k : StrId) :
    t.lookup? s k = lastIndex? (t.keys s) k (t.keys s).size := by
  unfold lookup? keys get? namesAt
  cases t.layouts[s]? with
  | none => rfl
  | some l => exact l.slots_eq k

theorem lookup?_eq_none_iff : t.lookup? s k = none ↔ k ∉ t.keys s := by
  rw [lookup?_eq, Array.mem_iff_getElem?]
  refine ⟨?_, fun h => Option.eq_none_iff_forall_ne_some.2 fun i hi => h ⟨i, lastIndex?_some hi⟩⟩
  rintro h ⟨i, hi⟩
  exact not_mem_of_lastIndex? h i (Array.getElem?_eq_some_iff.1 hi).1 hi

/-- The slot of a name is its last position. -/
theorem lookup?_eq_some_iff {i : Nat} : t.lookup? s k = some i ↔
    (t.keys s)[i]? = some k ∧ ∀ j : Nat, (t.keys s)[j]? = some k → j ≤ i := by
  rw [lookup?_eq]
  refine ⟨fun h => ⟨lastIndex?_some h, fun j hj => ?_⟩, ?_⟩
  · exact le_lastIndex? h (Array.getElem?_eq_some_iff.1 hj).1 hj
  · rintro ⟨hi, hlast⟩
    have hlt := (Array.getElem?_eq_some_iff.1 hi).1
    cases h : lastIndex? (t.keys s) k (t.keys s).size with
    | none => exact absurd hi (not_mem_of_lastIndex? h i hlt)
    | some j =>
      exact congrArg some (Nat.le_antisymm (hlast j (lastIndex?_some h)) (le_lastIndex? h hlt hi))

/-! ### Growing -/

/-- A transition leads to the names with one more. -/
theorem get?_transition (hs : s < t.size) (k : StrId) :
    (t.transition s k).2.get? (t.transition s k).1 = some ((t.keys s).push k) := by
  unfold transition
  split
  · next hnext =>
    obtain ⟨names, hnames, hs'⟩ := t.edge _ _ _ hnext
    rw [keys_of_get? hnames]
    exact hs'
  · split
    · next l hl =>
      rw [keys_of_get? (congrArg (Option.map _) hl)]
      exact (namesAt_push _ _ _).trans (if_pos rfl)
    · next hnone => exact absurd hs (Nat.not_lt.2 (Array.getElem?_eq_none_iff.1 hnone))

theorem get?_transition_of_some (h : t.get? s' = some names) :
    (t.transition s k).2.get? s' = some names := by
  unfold transition
  split
  · exact h
  · split
    · exact namesAt_push_of_some h _
    · exact h

theorem get?_extend {ks : List StrId} (h : t.get? s' = some names) :
    (t.extend s ks).2.get? s' = some names := by
  induction ks generalizing t s with
  | nil => exact h
  | cons k ks ih => exact ih (get?_transition_of_some h)

theorem get?_extend_self (hs : s < t.size) (ks : List StrId) :
    (t.extend s ks).2.get? (t.extend s ks).1 = some (t.keys s ++ ks.toArray) := by
  induction ks generalizing t s with
  | nil => simp [extend, get?_eq hs]
  | cons k ks ih =>
    have hget := get?_transition hs k
    refine (ih (get?_lt hget)).trans ?_
    rw [keys_of_get? hget]
    simp

theorem extend_lt (hs : s < t.size) (ks : List StrId) :
    (t.extend s ks).1 < (t.extend s ks).2.size := get?_lt (get?_extend_self hs ks)

/-- The table `t'` comes from `t` by calls on shapes that are there. -/
inductive Grows (t : Shapes) : Shapes → Prop
  | refl : Grows t t
  | transition {t' : Shapes} {s : ShapeId} (h : Grows t t') (hs : s < t'.size) (k : StrId) :
    Grows t (t'.transition s k).2
  | shapeFor {t' : Shapes} (h : Grows t t') (ks : List StrId) : Grows t (t'.shapeFor ks).2

theorem Grows.get? (h : t.Grows t') (hs : t.get? s = some names) : t'.get? s = some names := by
  induction h with
  | refl => exact hs
  | transition _ _ _ ih => exact get?_transition_of_some ih
  | shapeFor _ _ ih => exact get?_extend ih

/-! ### Ways from the root -/

/-- Every shape but the root is one name away from another. -/
theorem parent (h : t.get? s = some names) : s = root ∧ names = #[] ∨
    ∃ p k rest, t.next[(p, k)]? = some s ∧ t.get? p = some rest ∧ names = rest.push k := by
  rcases t.tree s (get?_lt h) with rfl | ⟨p, k, hp⟩
  · exact .inl ⟨rfl, Option.some.inj (h.symm.trans t.root_eq)⟩
  · obtain ⟨rest, hrest, hs⟩ := t.edge p k s hp
    exact .inr ⟨p, k, rest, hp, hrest, Option.some.inj (h.symm.trans hs)⟩

/-- No two shapes have the same names. -/
theorem get?_injective (h : t.get? s = some names) (h' : t.get? s' = some names) : s = s' := by
  -- both were reached by the last name, from shapes that are equal by induction
  induction hsize : names.size using Nat.strongRecOn generalizing names s s' with
  | _ n ih =>
    rcases parent h with ⟨rfl, rfl⟩ | ⟨p, k, rest, hp, hrest, rfl⟩
    · rcases parent h' with ⟨rfl, -⟩ | ⟨_, _, _, _, _, heq⟩
      · rfl
      · simp at heq
    · rcases parent h' with ⟨-, heq⟩ | ⟨p', k', rest', hp', hrest', heq⟩
      · simp at heq
      · obtain ⟨rfl, rfl⟩ := Array.push_eq_push.1 heq
        obtain rfl := ih _ (by simp [← hsize]) hrest hrest' rfl
        exact Option.some.inj (hp.symm.trans hp')

theorem get?_shapeFor (t : Shapes) (ks : List StrId) :
    (t.shapeFor ks).2.get? (t.shapeFor ks).1 = some ks.toArray := by
  refine (get?_extend_self (get?_lt t.root_eq) ks).trans ?_
  rw [keys_of_get? t.root_eq, Array.empty_append]

/-- **Shapes form a trie.** In every table, shapes with the same names are one, so two requests for
the shape of a list of names give one shape exactly if the lists are equal, whatever calls came
between. A transition adds its name at the end. A shape has as many slots as names, and a name is
found at its last position, if it occurs. No call changes a shape that is there. -/
theorem trie (hg : t.Grows t') :
    (∀ s₁ < t.size, ∀ s₂ < t.size, t.keys s₁ = t.keys s₂ → s₁ = s₂) ∧
    (∀ ks, (t.shapeFor ks).1 < (t.shapeFor ks).2.size ∧
      (t.shapeFor ks).2.keys (t.shapeFor ks).1 = ks.toArray) ∧
    (∀ ks ls t₁, (t.shapeFor ks).2.Grows t₁ →
      ((t.shapeFor ks).1 = (t₁.shapeFor ls).1 ↔ ks = ls)) ∧
    (∀ s < t.size, ∀ k, (t.transition s k).1 < (t.transition s k).2.size ∧
      (t.transition s k).2.keys (t.transition s k).1 = (t.keys s).push k) ∧
    (∀ s, t.slotCount s = (t.keys s).size) ∧
    (∀ s k, (∀ i, t.lookup? s k = some i ↔
        (t.keys s)[i]? = some k ∧ ∀ j : Nat, (t.keys s)[j]? = some k → j ≤ i) ∧
      (t.lookup? s k = none ↔ k ∉ t.keys s)) ∧
    ∀ s < t.size, s < t'.size ∧ t'.keys s = t.keys s ∧ t'.lookup? s = t.lookup? s ∧
      t'.slotCount s = t.slotCount s := by
  refine ⟨fun s₁ h₁ s₂ h₂ heq => ?_, fun ks => ?_, fun ks ls t₁ h₁ => ?_, fun s hs k => ?_,
    fun _ => rfl, fun s k => ⟨fun i => lookup?_eq_some_iff, lookup?_eq_none_iff⟩, fun s hs => ?_⟩
  · exact get?_injective (get?_eq h₁) (heq ▸ get?_eq h₂)
  · exact ⟨get?_lt (get?_shapeFor t ks), keys_of_get? (get?_shapeFor t ks)⟩
  · have hks : (t₁.shapeFor ls).2.get? (t.shapeFor ks).1 = some ks.toArray :=
      get?_extend (h₁.get? (get?_shapeFor t ks))
    have hls := get?_shapeFor t₁ ls
    refine ⟨fun heq => ?_, fun heq => get?_injective hks (heq ▸ hls)⟩
    rw [heq] at hks
    exact List.toArray_inj (Option.some.inj (hks.symm.trans hls))
  · exact ⟨get?_lt (get?_transition hs k), keys_of_get? (get?_transition hs k)⟩
  · have hget := hg.get? (get?_eq hs)
    have hkeys := keys_of_get? hget
    exact ⟨get?_lt hget, hkeys, funext fun k => by rw [lookup?_eq, hkeys, ← lookup?_eq],
      congrArg Array.size hkeys⟩

/-- Two names in either order: the second shape leaves the slot of a name in the first alone. -/
theorem trie_swapped :
    let ab := new.shapeFor [⟨1⟩, ⟨2⟩]
    let ba := ab.2.shapeFor [⟨2⟩, ⟨1⟩]
    ab.2.Grows ba.2 ∧ ab.1 ≠ ba.1 ∧ ab.1 < ab.2.size ∧ ba.2.lookup? ab.1 ⟨2⟩ = some 1 := by
  intro ab ba
  have hg : ab.2.Grows ba.2 := .shapeFor .refl _
  obtain ⟨-, hfor, hshared, -⟩ := trie (t := new) .refl
  obtain ⟨-, -, -, -, -, hlookup, hold⟩ := trie hg
  obtain ⟨hlt, hkeys⟩ := hfor [⟨1⟩, ⟨2⟩]
  refine ⟨hg, mt (hshared _ _ _ .refl).1 (by decide), hlt, ?_⟩
  rw [(hold ab.1 hlt).2.2.1, (hlookup ab.1 ⟨2⟩).1, hkeys]
  exact ⟨rfl, fun j hj => Nat.le_of_lt_succ (Array.getElem?_eq_some_iff.1 hj).1⟩

end Shapes

end FastPath
