import FastPath.Proofs.Value
import FastPath.Target.Operand

/-!
# The order of doubles

No comparison tells apart what is the same.

## Main results

* `Double.eq_same`, `Double.lt_same`, `Double.le_same`: comparisons respect `same`.
-/

namespace FastPath.Double

variable {a a' b b' : Double}

theorem unordered_same (ha : a.same a') (hb : b.same b') :
    unordered a b = unordered a' b' := by
  have hnan : ∀ {c c' : Double}, c.same c' → c.isNaN = c'.isNaN := by
    intro c c' h
    rcases same_iff.1 h with ⟨hn, hn'⟩ | rfl
    · rw [hn, hn']
    · rfl
  rw [unordered, unordered, hnan ha, hnan hb]

/-- What is asked of ordered numbers only respects identity. -/
theorem ordered_same {p : Double → Double → Bool} (ha : a.same a') (hb : b.same b') :
    (!unordered a b && p a b) = (!unordered a' b' && p a' b') := by
  rw [unordered_same ha hb]
  rcases same_iff.1 ha with ⟨hn, hn'⟩ | rfl
  · simp [unordered, hn']
  · rcases same_iff.1 hb with ⟨hn, hn'⟩ | rfl
    · simp [unordered, hn']
    · rfl

theorem eq_same (ha : a.same a') (hb : b.same b') : a.eq b = a'.eq b' :=
  ordered_same (p := fun x y => x.key == y.key) ha hb

theorem lt_same (ha : a.same a') (hb : b.same b') : a.lt b = a'.lt b' :=
  ordered_same (p := fun x y => decide (x.key < y.key)) ha hb

theorem le_same (ha : a.same a') (hb : b.same b') : a.le b = a'.le b' :=
  ordered_same (p := fun x y => decide (x.key ≤ y.key)) ha hb

end FastPath.Double

namespace FastPath

open Double

theorem RelOp.onDoubles_same (op : RelOp) {a a' b b' : Double} (ha : a.same a') (hb : b.same b') :
    op.onDoubles a b = op.onDoubles a' b' := by
  cases op
  · exact lt_same ha hb
  · exact le_same ha hb
  · exact lt_same hb ha
  · exact le_same hb ha

namespace DoubleCond

variable {a a' b b' : Double}

theorem eval_same (cond : DoubleCond) (ha : a.same a') (hb : b.same b') :
    cond.eval a b = cond.eval a' b' := by
  rw [eval, eval, Double.unordered_same ha hb]
  cases cond.rel with
  | equal | notEqual => rw [DoubleRel.eval, DoubleRel.eval, Double.eq_same ha hb]
  | order op => rw [DoubleRel.eval, DoubleRel.eval, op.onDoubles_same ha hb]

/-- No relation holds of a NaN. -/
theorem eval_order (op : RelOp) (a b : Double) :
    (⟨.order op, false⟩ : DoubleCond).eval a b = op.onDoubles a b := by
  have hcomm : b.unordered a = a.unordered b := Bool.or_comm _ _
  unfold eval
  split
  · next h =>
    cases op <;> simp [RelOp.onDoubles, Double.lt, Double.le, hcomm, h]
  · rfl

end DoubleCond

end FastPath
