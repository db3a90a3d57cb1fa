import FastPath.Generic.Arith
import FastPath.Proofs.Value

/-!
# Sums of doubles

All NaNs are alike to addition.

## Main results

* `Double.add_same`: addition does not tell apart what is the same.
-/

namespace FastPath.Double

theorem add_eq_addFinite {a b : Double} (ha : a.isFinite) (hb : b.isFinite) :
    a.add b = addFinite a b := by
  simp [add, isNaN_of_isFinite ha, isNaN_of_isFinite hb, isInfinite_of_isFinite ha,
    isInfinite_of_isFinite hb]

theorem isNaN_quiet {d : Double} (h : d.isNaN) : d.quiet.isNaN := by
  have hle : d.magnitude ≤ d.quiet.magnitude := by
    simp only [magnitude, quiet, UInt64.toNat_or]
    change _ % 2 ^ 63 ≤ _ % 2 ^ 63
    rw [Nat.or_mod_two_pow]
    exact Nat.left_le_or
  simp only [isNaN, decide_eq_true_eq] at h ⊢
  omega

theorem isNaN_add {a b : Double} (h : a.isNaN ∨ b.isNaN) : (a.add b).isNaN := by
  unfold add
  split
  · next ha => exact isNaN_quiet ha
  · next ha =>
    rw [if_pos (h.resolve_left ha)]
    exact isNaN_quiet (h.resolve_left ha)

variable {a a' b b' : Double}

theorem add_same (ha : a.same a') (hb : b.same b') : (a.add b).same (a'.add b') := by
  rcases same_iff.1 ha with ⟨hn, hn'⟩ | rfl
  · exact same_iff.2 (.inl ⟨isNaN_add (.inl hn), isNaN_add (.inl hn')⟩)
  · rcases same_iff.1 hb with ⟨hn, hn'⟩ | rfl
    · exact same_iff.2 (.inl ⟨isNaN_add (.inr hn), isNaN_add (.inr hn')⟩)
    · exact same_refl _

end FastPath.Double
