import FastPath.Proofs.Double.Order
import FastPath.Proofs.Double.Sum

/-!
# Truncation of large numbers

A number that is out of range of the 32-bit integers may be moved by `2 ^ 32` towards zero. If
the sum is a 32-bit integer, then no rounding has taken place, and the integer is the number
modulo `2 ^ 32`.
-/

namespace FastPath.Double

/-! ### Rounding -/

theorem le_roundDiv (n d : Nat) : n / d ≤ roundDiv n d := by
  unfold roundDiv
  dsimp only
  split
  · exact Nat.le_refl _
  · split <;> omega

theorem le_scaled {n q : Nat} {e : Int} (h0 : n ≠ 0) (h : (q : Int) + 20 + e ≤ n.log2) :
    twoPow q ≤ n * twoPow (-e).toNat / (twoPow 20 * twoPow e.toNat) := by
  rw [Nat.le_div_iff_mul_le (Nat.mul_pos (twoPow_pos _) (twoPow_pos _)), ← twoPow_add, ← twoPow_add]
  calc twoPow (q + (20 + e.toNat)) ≤ twoPow (n.log2 + (-e).toNat) := twoPow_le (by omega)
    _ = twoPow n.log2 * twoPow (-e).toNat := twoPow_add ..
    _ ≤ n * twoPow (-e).toNat := Nat.mul_le_mul_right _ (twoPow_log2_le h0)

/-- A number that is not small does not become small. -/
theorem le_magnitude_round (negative : Bool) {n : Nat} (hn : twoPow 52 ≤ n) :
    1055 * implicitBit ≤ (round negative n (twoPow 20)).magnitude := by
  have h0 : n ≠ 0 := Nat.ne_of_gt (Nat.lt_of_lt_of_le (twoPow_pos 52) hn)
  have hlog : 52 ≤ n.log2 := (Nat.le_log2 h0).2 hn
  have hpos : 0 < implicitBit := twoPow_pos 52
  have hexp : roundingExponent n (twoPow 20) = (n.log2 : Int) - 72 := by
    have hbig : 2 * implicitBit ≤ n * twoPow (-((n.log2 : Int) - 20 - 53)).toNat /
        (twoPow 20 * twoPow ((n.log2 : Int) - 20 - 53).toNat) := le_scaled (q := 53) h0 (by omega)
    simp only [roundingExponent, log2_twoPow, scaled, Nat.cast_ofNat, if_pos hbig]
    omega
  have hdiv : implicitBit ≤ roundDiv (n * twoPow (-((n.log2 : Int) - 72)).toNat)
      (twoPow 20 * twoPow ((n.log2 : Int) - 72).toNat) :=
    Nat.le_trans (le_scaled (q := 52) h0 (by omega)) (le_roundDiv _ _)
  have hshift : 1054 * implicitBit ≤ ((n.log2 : Int) - 72 + 1074).toNat * implicitBit :=
    Nat.mul_le_mul_right _ (by omega)
  simp only [round, h0, if_false, hexp, scaled]
  rw [magnitude_ofMagnitude]
  · unfold infinityMagnitude
    omega
  · refine Nat.lt_of_le_of_lt (Nat.min_le_right _ _) ?_
    decide

/-- An integer is below 2^32 in magnitude. -/
theorem magnitude_ofInt32_lt (i : Int32) : (ofInt32 i).magnitude < 1055 * implicitBit := by
  have hpos : 0 < implicitBit := twoPow_pos 52
  by_cases h0 : i.toInt = 0
  · rw [ofInt32, h0, ofInt_zero]
    decide
  · obtain ⟨hmag, -⟩ := ofInt_fields h0 (natAbs_int32_lt i)
    have hlt : i.toInt.natAbs < twoPow 32 := by
      have := i.toInt_lt
      have := i.le_toInt
      change _ < 2 ^ 32
      omega
    have h0' := Int.natAbs_ne_zero.2 h0
    have hlog := log2_lt_of_lt h0' hlt
    have hsig := (significand_bounds h0' (natAbs_int32_lt i)).2
    have hle : (i.toInt.natAbs.log2 + 1022 - 0) * implicitBit ≤ 1053 * implicitBit :=
      Nat.mul_le_mul_right _ (by omega)
    rw [ofInt32, hmag, exactMagnitude]
    omega

/-- An exact number that is an integer. -/
theorem natAbs_truncate_exact {d : Double} {m j : Nat} (h0 : m ≠ 0) (hm : m < twoPow 53)
    (hj : 0 < j) (hj' : j ≤ 1022) (hd : d.magnitude = exactMagnitude m j) (hint : d.isIntegral) :
    d.truncate.natAbs * twoPow j = m := by
  obtain ⟨-, -, hmant, hexp⟩ := fields_exact h0 hm (by omega) hd
  have hlog : m.log2 ≤ 52 := Nat.lt_succ_iff.1 (log2_lt_of_lt h0 hm)
  have hneg : ¬0 ≤ d.exponent := by omega
  have hshift : (-d.exponent).toNat = 52 - m.log2 + j := by omega
  have hmod : d.mantissa % twoPow (-d.exponent).toNat = 0 := by
    simpa [isIntegral, hneg] using (Bool.and_eq_true_iff.1 hint).2
  rw [hmant, hshift, twoPow_add, Nat.mul_comm m, Nat.mul_mod_mul_left] at hmod
  have hmod' : m % twoPow j = 0 :=
    (Nat.mul_eq_zero.1 hmod).resolve_left (Nat.ne_of_gt (twoPow_pos _))
  rw [natAbs_truncate, if_neg hneg, hmant, hshift, twoPow_add, Nat.mul_comm m,
    Nat.mul_div_mul_left _ _ (twoPow_pos _)]
  exact Nat.div_mul_cancel (Nat.dvd_of_mod_eq_zero hmod')

/-! ### Large numbers -/

/-- `2 ^ 32` with the sign that moves a number towards zero. -/
def towardsZero (d : Double) : Double := if d.negative then twoPow32 else twoPow32.neg

theorem towardsZero_fields (d : Double) : d.towardsZero.isFinite ∧
    d.towardsZero.negative = !d.negative ∧ d.towardsZero.mantissa = implicitBit ∧
    d.towardsZero.exponent = -20 := by
  unfold towardsZero
  cases d.negative <;> decide

/-- The exponent of a number that is out of range. -/
theorem le_exponent_of_large {d : Double} (h : 2 ^ 31 ≤ d.truncate.natAbs) :
    -21 ≤ d.exponent ∧ implicitBit ≤ d.mantissa := by
  have hexp : -21 ≤ d.exponent := by
    by_contra hlt
    have hneg : ¬0 ≤ d.exponent := by omega
    rw [natAbs_truncate, if_neg hneg, Nat.le_div_iff_mul_le (twoPow_pos _)] at h
    have hle : twoPow 53 ≤ 2 ^ 31 * twoPow (-d.exponent).toNat := by
      change twoPow 53 ≤ twoPow 31 * _
      rw [← twoPow_add]
      exact twoPow_le (by omega)
    have := d.mantissa_lt
    change _ < twoPow 53 at this
    omega
  refine ⟨hexp, implicitBit_le_mantissa fun h0 => ?_⟩
  rw [exponent, h0] at hexp
  omega

variable {d : Double}

/-- The sign of a sum of a number and one of the opposite sign. -/
theorem exactSum_towardsZero (e : Int) : exactSum d d.towardsZero e =
    (if d.negative then -1 else 1) * ((d.mantissa * twoPow (d.exponent - e).toNat : Nat) -
      (implicitBit * twoPow (-20 - e).toNat : Nat) : Int) := by
  obtain ⟨-, hneg, hmant, hexp⟩ := d.towardsZero_fields
  rw [exactSum, signedMantissa, signedMantissa, hneg, hmant, hexp]
  cases d.negative <;> push_cast <;> simp <;> ring

theorem int32_ofInt_add_mul (n k : Int) : Int32.ofInt (n + k * 2 ^ 32) = Int32.ofInt n := by
  apply Int32.toInt_inj.1
  rw [Int32.toInt_ofInt, Int32.toInt_ofInt]
  exact Int.add_mul_bmod_self_right n k (2 ^ 32)

theorem exactInt32?_eq_some {i : Int32} (h : d.exactInt32? = some i) :
    d.isIntegral ∧ d.truncate = i.toInt := by
  unfold exactInt32? at h
  split at h
  · next hint => exact ⟨(Bool.and_eq_true_iff.1 hint).1, int32?_eq_some h⟩
  · cases h

/-- Between `2 ^ 31` and `2 ^ 33` the sum is exact. -/
theorem truncate_of_moved_exact {j : Nat} {i : Int32} (hd : d.isFinite) (hj : 20 ≤ j) (hj' : j ≤ 21)
    (he : d.exponent = -(j : Int)) (hm : implicitBit ≤ d.mantissa)
    (h : (d.add d.towardsZero).exactInt32? = some i) :
    d.truncate = i.toInt + (if d.negative then -1 else 1) * 2 ^ 32 := by
  obtain ⟨hfin, hneg, -, hexp⟩ := d.towardsZero_fields
  have hmin : min d.exponent d.towardsZero.exponent = -(j : Int) := by omega
  have hunit : implicitBit * twoPow (-20 - -(j : Int)).toNat = 2 ^ 32 * twoPow j := by
    change twoPow 52 * _ = twoPow 32 * _
    rw [← twoPow_add, ← twoPow_add]
    congr 1
    omega
  have hsum : exactSum d d.towardsZero (-(j : Int)) =
      (if d.negative then -1 else 1) * ((d.mantissa : Int) - 2 ^ 32 * (twoPow j : Nat)) := by
    rw [exactSum_towardsZero, hunit, he]
    simp [twoPow]
  -- the sum as a multiple of the unit
  have hexact : exactSum d d.towardsZero (-(j : Int)) = i.toInt * (twoPow j : Nat) := by
    rw [add_eq_addFinite hd hfin, addFinite, hmin] at h
    split at h
    · next hzero =>
      have hsign : (d.negative && d.towardsZero.negative) = false := by rw [hneg]; simp
      rw [hsign] at h
      obtain ⟨-, htr⟩ := exactInt32?_eq_some h
      rw [hzero, ← htr]
      change 0 = zero.truncate * _
      rw [truncate_zero, Int.zero_mul]
    · next hne =>
      have hzero : (-(j : Int)).toNat = 0 := by omega
      have hback : (- -(j : Int)).toNat = j := by omega
      have h0 := Int.natAbs_ne_zero.2 hne
      have hlt : (exactSum d d.towardsZero (-(j : Int))).natAbs < twoPow 53 := by
        have hone : (if d.negative then -1 else 1 : Int).natAbs = 1 := by cases d.negative <;> rfl
        have hle : 2 ^ 32 * twoPow j ≤ 2 ^ 32 * twoPow 21 := Nat.mul_le_mul_left _ (twoPow_le hj')
        have hmlt := d.mantissa_lt
        have h53 : twoPow 53 = 2 ^ 32 * twoPow 21 := rfl
        have h52 : 0 < implicitBit := twoPow_pos 52
        have hpos : 0 < 2 ^ 32 * twoPow j := Nat.mul_pos (by decide) (twoPow_pos j)
        change _ < twoPow 53 at hmlt
        rw [hsum, Int.natAbs_mul, hone, Nat.one_mul]
        generalize twoPow j = u at hle hpos ⊢
        omega
      rw [hzero, hback] at h
      change (round _ (_ * 1) _).exactInt32? = _ at h
      rw [Nat.mul_one, round_exact _ h0 hlt (by omega)] at h
      have hmag : exactMagnitude (exactSum d d.towardsZero (-(j : Int))).natAbs j < signPlace :=
        Nat.lt_trans (exactMagnitude_lt h0 hlt) (by decide)
      obtain ⟨hint, htr⟩ := exactInt32?_eq_some h
      have habs :=
        natAbs_truncate_exact h0 hlt (by omega) (by omega) (magnitude_ofMagnitude _ hmag) hint
      have hi0 : i.toInt ≠ 0 := by
        intro hi
        rw [htr, hi] at habs
        simp at habs
        exact h0 habs.symm
      have hsign := negative_eq_of_truncate (htr.symm ▸ hi0)
      rw [negative_ofMagnitude _ hmag, htr, decide_eq_decide] at hsign
      rw [htr] at habs
      have hpos : (0 : Int) < (twoPow j : Nat) := Int.natCast_pos.2 (twoPow_pos j)
      by_cases hs : exactSum d d.towardsZero (-(j : Int)) < 0
      · have hi := hsign.1 hs
        rw [← Int.neg_inj, ← Int.neg_mul, ← Int.ofNat_natAbs_of_nonpos (Int.le_of_lt hs),
          ← Int.ofNat_natAbs_of_nonpos (Int.le_of_lt hi), ← Int.natCast_mul, habs]
      · have hi : 0 ≤ i.toInt := Int.not_lt.1 fun hi => hs (hsign.2 hi)
        rw [← Int.natAbs_of_nonneg (Int.not_lt.1 hs), ← Int.natAbs_of_nonneg hi,
          ← Int.natCast_mul, habs]
  have hneg' : ¬0 ≤ d.exponent := by omega
  have hback : (-d.exponent).toNat = j := by omega
  have hpos : (twoPow j : Int) ≠ 0 := by
    have := twoPow_pos j
    omega
  have hwhole : ((d.mantissa / twoPow j : Nat) : Int) =
      2 ^ 32 + (if d.negative then -1 else 1) * i.toInt := by
    have hM : (d.mantissa : Int) = (2 ^ 32 + (if d.negative then -1 else 1) * i.toInt) *
        (twoPow j : Nat) := by
      rw [hsum] at hexact
      cases hn : d.negative <;>
        simp only [hn, if_true, if_false, Bool.false_eq_true] at hexact ⊢ <;>
        linarith
    rw [Int.natCast_ediv, hM, Int.mul_ediv_cancel _ hpos]
  rw [truncate, if_neg hneg', hback]
  simp only [hwhole]
  cases d.negative
  · simp [Int.add_comm]
  · simp

/-- Beyond `2 ^ 33` the sum is out of range as well. -/
theorem exactInt32?_of_moved_far (hd : d.isFinite) (he : -19 ≤ d.exponent)
    (hm : implicitBit ≤ d.mantissa) : (d.add d.towardsZero).exactInt32? = none := by
  obtain ⟨hfin, -, -, hexp⟩ := d.towardsZero_fields
  have hmin : min d.exponent d.towardsZero.exponent = -20 := by omega
  have hbig : twoPow 53 ≤ d.mantissa * twoPow (d.exponent - -20).toNat := by
    calc twoPow 53 = implicitBit * twoPow 1 := rfl
      _ ≤ d.mantissa * twoPow (d.exponent - -20).toNat := Nat.mul_le_mul hm (twoPow_le (by omega))
  have hsum := exactSum_towardsZero (d := d) (-20)
  have hlarge : twoPow 52 ≤ (exactSum d d.towardsZero (-20)).natAbs := by
    rw [hsum, Int.natAbs_mul]
    have hone : (if d.negative then -1 else 1 : Int).natAbs = 1 := by cases d.negative <;> rfl
    rw [hone, Nat.one_mul]
    change twoPow 53 ≤ _ at hbig
    change twoPow 52 ≤ ((_ : Int) - (implicitBit * 1 : Nat)).natAbs
    have : twoPow 53 = 2 * twoPow 52 := rfl
    have : implicitBit = twoPow 52 := rfl
    omega
  have hne : exactSum d d.towardsZero (-20) ≠ 0 := by
    intro h0
    rw [h0] at hlarge
    exact absurd hlarge (by decide)
  rw [add_eq_addFinite hd hfin, addFinite, hmin, if_neg hne]
  change (round _ (_ * 1) (twoPow 20)).exactInt32? = none
  rw [Nat.mul_one]
  cases hx : (round _ _ (twoPow 20)).exactInt32? with
  | none => rfl
  | some i =>
    have hlt := magnitude_ofInt32_lt i
    rw [ofInt32_of_exactInt32? hx] at hlt
    exact absurd (le_magnitude_round _ hlarge) (Nat.not_le_of_lt hlt)

theorem lt_zero (hd : d.isFinite) (h0 : d.truncate ≠ 0) : d.lt zero = d.negative := by
  have hmag : d.magnitude ≠ 0 := by
    intro hmag
    have hm : d.mantissa = 0 := by simp [mantissa, biased, fraction, hmag]
    apply h0
    simp [truncate, hm]
  have hkey : zero.key = 0 := by decide
  have hnan : zero.isNaN = false := by decide
  rw [lt, unordered, isNaN_of_isFinite hd, hnan, hkey, key]
  cases d.negative
  · simp
  · simp
    omega

/-- What is added to a number that is not finite does not matter. -/
theorem isFinite_add_eq_false {b : Double} (hd : ¬d.isFinite) (hb : b.isFinite) :
    (d.add b).isFinite = false := by
  by_cases hnan : d.isNaN
  · have h := isNaN_add (b := b) (.inl hnan)
    simp only [isNaN, isFinite, decide_eq_true_eq, decide_eq_false_iff_not] at h ⊢
    omega
  · have hinf : d.isInfinite := by
      simp only [isNaN, isFinite, isInfinite, decide_eq_true_eq] at hnan hd ⊢
      omega
    simp [add, hnan, isNaN_of_isFinite hb, isInfinite_of_isFinite hb, hinf, hd]

/-- **A second attempt at conversion is right if it succeeds.** -/
theorem toInt32_of_moved {i : Int32} (hout : d.truncateInt32? = none)
    (h : (d.add (if d.lt zero then twoPow32 else twoPow32.neg)).exactInt32? = some i) :
    d.toInt32 = i := by
  have hfinite : d.isFinite := by
    by_contra hd
    obtain ⟨hint, -⟩ := exactInt32?_eq_some h
    have hb : ∀ b : Bool, (if b then twoPow32 else twoPow32.neg).isFinite := by decide
    rw [isIntegral, isFinite_add_eq_false hd (hb _)] at hint
    cases hint
  have hlarge : 2 ^ 31 ≤ d.truncate.natAbs := by
    simp only [truncateInt32?, hfinite, if_true, int32?] at hout
    split at hout
    · cases hout
    · omega
  have hmoved : (if d.lt zero then twoPow32 else twoPow32.neg) = d.towardsZero := by
    rw [lt_zero hfinite (by omega), towardsZero]
  rw [hmoved] at h
  obtain ⟨hexp, hm⟩ := le_exponent_of_large hlarge
  by_cases hfar : -19 ≤ d.exponent
  · rw [exactInt32?_of_moved_far hfinite hfar hm] at h
    cases h
  · have htr := truncate_of_moved_exact (j := (-d.exponent).toNat) hfinite (by omega) (by omega)
      (by omega) hm h
    rw [toInt32, if_pos hfinite, htr, int32_ofInt_add_mul, Int32.ofInt_toInt]

/-- A number in range is converted at once. -/
theorem toInt32_of_truncateInt32? {i : Int32} (h : d.truncateInt32? = some i) : d.toInt32 = i := by
  unfold truncateInt32? at h
  split at h
  · next hfin =>
    unfold int32? at h
    split at h
    · rw [toInt32, if_pos hfin]
      exact Option.some.inj h
    · cases h
  · cases h

end FastPath.Double
