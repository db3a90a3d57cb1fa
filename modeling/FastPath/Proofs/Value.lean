import FastPath.Proofs.Double.Integer
import FastPath.Value

/-!
# Observable identity

`Value.same` identifies an integer with the double that has its value, and all NaNs with
one another. It is an equivalence, and it is what compiled code preserves: a number that
passes through a double register comes back in the other representation.

## Main results

* `Value.same_refl`, `Value.same_symm`, `Value.same_trans`: `same` is an equivalence.
* `Value.number_same`: a number is stored as itself, whichever representation is chosen.
* `Cell.Encodes`: a cell holds a value, up to `same`.
-/

namespace FastPath

/-! ### Numbers -/

namespace Double

variable {a b : Double}

/-- Two numbers are the same if both are NaN, or else if they have the same bits. -/
theorem same_iff : a.same b ↔ (a.isNaN ∧ b.isNaN) ∨ a = b := by
  constructor
  · intro h
    simp only [same, eq, Bool.or_eq_true, Bool.and_eq_true, beq_iff_eq] at h
    rcases h with h | ⟨⟨-, hkey⟩, hneg⟩
    · exact .inl h
    · right
      have hmag : a.magnitude = b.magnitude := by
        simp only [key, hneg] at hkey
        split at hkey <;> omega
      rw [← ofMagnitude_negative_magnitude a, ← ofMagnitude_negative_magnitude b, hmag, hneg]
  · rintro (⟨ha, hb⟩ | rfl)
    · simp [same, ha, hb]
    · simp only [same, eq, unordered, Bool.or_self, Bool.and_self, beq_self_eq_true,
        Bool.and_true]
      cases a.isNaN <;> rfl

theorem same_refl (a : Double) : a.same a := same_iff.2 (.inr rfl)

theorem same_symm (h : a.same b) : b.same a := by
  rcases same_iff.1 h with ⟨ha, hb⟩ | rfl
  · exact same_iff.2 (.inl ⟨hb, ha⟩)
  · exact h

theorem same_trans {c : Double} (hab : a.same b) (hbc : b.same c) : a.same c := by
  rcases same_iff.1 hab with ⟨ha, hb⟩ | rfl
  · rcases same_iff.1 hbc with ⟨-, hc⟩ | rfl
    · exact same_iff.2 (.inl ⟨ha, hc⟩)
    · exact hab
  · exact hbc

end Double

/-! ### Values -/

namespace Value

variable {a b : Value}

/-- What `same` means, by whether the operands are numbers. -/
theorem same_iff : a.same b ↔
    (∃ x y, a.double? = some x ∧ b.double? = some y ∧ x.same y) ∨
      (a.double? = none ∧ a = b) := by
  unfold same
  cases ha : a.double? <;> cases hb : b.double? <;> simp
  · rintro rfl
    exact absurd (ha.symm.trans hb) (by simp)

theorem same_refl (a : Value) : a.same a := by
  cases h : a.double? with
  | none => exact same_iff.2 (.inr ⟨h, rfl⟩)
  | some x => exact same_iff.2 (.inl ⟨x, x, h, h, x.same_refl⟩)

theorem same_symm (h : a.same b) : b.same a := by
  rcases same_iff.1 h with ⟨x, y, hx, hy, hxy⟩ | ⟨-, rfl⟩
  · exact same_iff.2 (.inl ⟨y, x, hy, hx, Double.same_symm hxy⟩)
  · exact h

theorem same_trans {c : Value} (hab : a.same b) (hbc : b.same c) : a.same c := by
  rcases same_iff.1 hab with ⟨x, y, hx, hy, hxy⟩ | ⟨-, rfl⟩
  · rcases same_iff.1 hbc with ⟨y', z, hy', hz, hyz⟩ | ⟨hnone, -⟩
    · rw [hy] at hy'
      obtain rfl := Option.some.inj hy'
      exact same_iff.2 (.inl ⟨x, z, hx, hz, Double.same_trans hxy hyz⟩)
    · exact absurd (hy.symm.trans hnone) (by simp)
  · exact hbc

theorem same_of_eq (h : a = b) : a.same b := h ▸ same_refl a

/-- The numbers of values that are the same are the same. -/
theorem same_double? (h : a.same b) {x : Double} (hx : a.double? = some x) :
    ∃ y, b.double? = some y ∧ x.same y := by
  rcases same_iff.1 h with ⟨x', y, hx', hy, hxy⟩ | ⟨hnone, -⟩
  · rw [hx] at hx'
    obtain rfl := Option.some.inj hx'
    exact ⟨y, hy, hxy⟩
  · exact absurd (hx.symm.trans hnone) (by simp)

theorem isNumber_eq (v : Value) : v.isNumber = v.double?.isSome := by cases v <;> rfl

theorem isNumber_of_tag {v : Value} (h : v.tag = .int32) : v.isNumber := by
  cases v <;> first | rfl | cases h

theorem same_isNumber (h : a.same b) : a.isNumber = b.isNumber := by
  rw [isNumber_eq, isNumber_eq]
  rcases same_iff.1 h with ⟨x, y, hx, hy, -⟩ | ⟨-, rfl⟩
  · rw [hx, hy]
    rfl
  · rfl

theorem isNumber_number (d : Double) : (number d).isNumber := by
  unfold number
  split <;> rfl

/-- A number is stored as itself. -/
theorem number_same (d : Double) : (number d).same (double d) := by
  unfold number
  cases h : d.exactInt32? with
  | none => exact same_refl _
  | some i =>
    refine same_iff.2 (.inl ⟨_, _, rfl, rfl, ?_⟩)
    rw [Double.ofInt32_of_exactInt32? h]
    exact d.same_refl

end Value

/-! ### Cells -/

namespace Cell

/-- The cell holds the value, up to `Value.same`. -/
def Encodes (c : Cell) (v : Value) : Prop := ∃ u, c.decode = .ok u ∧ u.same v

/-- Which cells are met where a value is stored. Those that stand for a value are, whatever
else is. -/
class Discipline where
  valid : Cell → Prop
  valid_toCell : ∀ v : Value, valid v.toCell

/-- Any cell may be met. -/
instance (priority := low) anyCell : Discipline := ⟨fun _ => True, fun _ => trivial⟩

/-- The cell stores the value, and is one that may be met. -/
def Reads [Discipline] (c : Cell) (v : Value) : Prop := c.decode = .ok v ∧ Discipline.valid c

variable {v : Value}

/-- The tag word of a cell is that of the value it stores. -/
theorem tag_of_decode {c : Cell} (h : c.decode = .ok v) : c.tag = v.tag.word := by
  have hword : ∀ t, Tag.ofWord? c.tag = some t → c.tag = t.word := by
    intro t ht
    have := List.find?_some ht
    simp only [beq_iff_eq] at this
    exact this.symm
  unfold decode at h
  cases ht : Tag.ofWord? c.tag with
  | none => simp [ht] at h
  | some t =>
    rw [hword t ht]
    cases t <;> simp only [ht, Except.ok.injEq, reduceCtorEq] at h <;> rw [← h] <;> rfl

theorem tag_of_reads [Discipline] {c : Cell} (h : c.Reads v) : c.tag = v.tag.word :=
  tag_of_decode h.1

theorem reads_toCell [Discipline] (v : Value) : v.toCell.Reads v :=
  ⟨decode_toCell v, Discipline.valid_toCell v⟩

theorem encodes_toCell {u : Value} (h : u.same v) : u.toCell.Encodes v :=
  ⟨u, decode_toCell u, h⟩

end Cell

end FastPath
