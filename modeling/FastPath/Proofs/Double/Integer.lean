import FastPath.Proofs.Double.Exact

/-!
# Integers as numbers

Every integer below `2 ^ 53` is a number, and a number that is a 32-bit integer is the
one that the integer converts to.

## Main results

* `truncate_ofInt`: an integer is what its number is cut to.
* `ofInt32_of_exactInt32?`: a number that is a 32-bit integer comes from that integer.
-/

namespace FastPath.Double

/-! ### Whole numbers -/

variable {d : Double} {n : Int} {i : Int32}

/-- A mantissa that is a multiple of the unit denotes a whole number. -/
theorem truncate_eq {x j : Nat} (hm : d.mantissa = x * twoPow j) (he : d.exponent = -(j : Int)) :
    d.truncate = if d.negative then -(x : Int) else x := by
  have hwhole : (if 0 ≤ d.exponent then d.mantissa * twoPow d.exponent.toNat
      else d.mantissa / twoPow (-d.exponent).toNat) = x := by
    rw [he, hm]
    cases j with
    | zero =>
      change x * 1 * 1 = x
      omega
    | succ j =>
      rw [if_neg (by omega), Int.neg_neg, Int.toNat_natCast]
      exact Nat.mul_div_cancel _ (twoPow_pos _)
  rw [truncate]
  simp only [hwhole]

theorem isIntegral_eq {x j : Nat} (hm : d.mantissa = x * twoPow j) (he : d.exponent = -(j : Int)) :
    d.isIntegral = d.isFinite := by
  have hmod : d.mantissa % twoPow (-d.exponent).toNat = 0 := by
    rw [he, hm, Int.neg_neg, Int.toNat_natCast]
    exact Nat.mul_mod_left _ _
  simp [isIntegral, hmod]

theorem ofInt_zero : ofInt 0 = zero := rfl

theorem mantissa_zero : zero.mantissa = 0 := by decide

theorem exponent_zero : zero.exponent = -1074 := by decide

theorem isIntegral_zero : zero.isIntegral = true := by
  have h : zero.mantissa = 0 * twoPow 1074 := mantissa_zero.trans (Nat.zero_mul _).symm
  rw [isIntegral_eq h exponent_zero]
  decide

theorem truncate_zero : zero.truncate = 0 := by
  have h : zero.mantissa = 0 * twoPow 1074 := mantissa_zero.trans (Nat.zero_mul _).symm
  rw [truncate_eq h exponent_zero]
  decide

/-- Everything about the number of an integer other than zero. -/
theorem ofInt_fields (h0 : n ≠ 0) (hn : n.natAbs < twoPow 53) :
    (ofInt n).magnitude = exactMagnitude n.natAbs 0 ∧ (ofInt n).negative = decide (n < 0) ∧
      (ofInt n).isFinite ∧ (ofInt n).isZero = false ∧
      (ofInt n).mantissa = n.natAbs * twoPow (52 - n.natAbs.log2) ∧
      (ofInt n).exponent = -((52 - n.natAbs.log2 : Nat) : Int) := by
  have habs : n.natAbs ≠ 0 := by omega
  have hL : n.natAbs.log2 ≤ 52 := Nat.lt_succ_iff.1 (log2_lt_of_lt habs hn)
  have hround : ofInt n = ofMagnitude (decide (n < 0)) (exactMagnitude n.natAbs 0) :=
    round_exact (k := 0) _ habs hn (Nat.zero_le _)
  have hlt : exactMagnitude n.natAbs 0 < signPlace :=
    Nat.lt_trans (exactMagnitude_lt habs hn) (by decide)
  have hmag : (ofInt n).magnitude = exactMagnitude n.natAbs 0 := by
    rw [hround, magnitude_ofMagnitude _ hlt]
  obtain ⟨hfin, hzero, hman, hexp⟩ := fields_exact habs hn (Nat.zero_le _) hmag
  refine ⟨hmag, ?_, hfin, hzero, hman, ?_⟩
  · rw [hround, negative_ofMagnitude _ hlt]
  · rw [hexp]
    omega

theorem negative_ofInt (hn : n.natAbs < twoPow 53) : (ofInt n).negative = decide (n < 0) := by
  by_cases h0 : n = 0
  · subst h0
    rfl
  · exact (ofInt_fields h0 hn).2.1

theorem truncate_ofInt (hn : n.natAbs < twoPow 53) : (ofInt n).truncate = n := by
  by_cases h0 : n = 0
  · subst h0
    exact truncate_zero
  · obtain ⟨-, hneg, -, -, hman, hexp⟩ := ofInt_fields h0 hn
    rw [truncate_eq hman hexp, hneg]
    by_cases hlt : n < 0
    · simp only [hlt, decide_true, if_true]
      omega
    · simp only [hlt, decide_false, Bool.false_eq_true, if_false]
      omega

theorem isFinite_ofInt (hn : n.natAbs < twoPow 53) : (ofInt n).isFinite = true := by
  by_cases h0 : n = 0
  · subst h0
    decide
  · exact (ofInt_fields h0 hn).2.2.1

theorem isIntegral_ofInt (hn : n.natAbs < twoPow 53) : (ofInt n).isIntegral = true := by
  by_cases h0 : n = 0
  · subst h0
    exact isIntegral_zero
  · obtain ⟨-, -, hfin, -, hman, hexp⟩ := ofInt_fields h0 hn
    rw [isIntegral_eq hman hexp, hfin]

theorem isZero_ofInt (hn : n.natAbs < twoPow 53) : (ofInt n).isZero = decide (n = 0) := by
  by_cases h0 : n = 0
  · subst h0
    decide
  · rw [(ofInt_fields h0 hn).2.2.2.1]
    simp [h0]

theorem isNaN_of_isFinite (h : d.isFinite = true) : d.isNaN = false := by
  simp only [isFinite, decide_eq_true_eq] at h
  simp only [isNaN, decide_eq_false_iff_not]
  omega

theorem isInfinite_of_isFinite (h : d.isFinite = true) : d.isInfinite = false := by
  simp only [isFinite, decide_eq_true_eq] at h
  simp only [isInfinite, decide_eq_false_iff_not]
  omega

theorem isNegativeZero_ofInt (hn : n.natAbs < twoPow 53) : (ofInt n).isNegativeZero = false := by
  rw [isNegativeZero, negative_ofInt hn, isZero_ofInt hn]
  by_cases h : n < 0
  · simp [Int.ne_of_lt h]
  · simp [h]

/-! ### 32-bit integers -/

theorem natAbs_int32_lt (i : Int32) : i.toInt.natAbs < twoPow 53 := by
  have hlo := i.minValue_le_toInt
  have hhi := i.toInt_le
  change -0x80000000 ≤ _ at hlo
  change _ ≤ 0x7fffffff at hhi
  have : twoPow 53 = 9007199254740992 := by decide
  omega

/-- What an integer in range says. -/
theorem int32?_eq_some (h : int32? n = some i) : n = i.toInt := by
  unfold int32? at h
  split at h
  · next hr =>
    obtain rfl := Option.some.inj h
    exact (Int32.toInt_ofInt_of_le (by simpa using hr.1) (by simpa using hr.2)).symm
  · cases h

theorem toInt32_ofInt32 (i : Int32) : (ofInt32 i).toInt32 = i := by
  have hn := natAbs_int32_lt i
  simp only [toInt32, ofInt32, isFinite_ofInt hn, if_true, truncate_ofInt hn]
  exact Int32.ofInt_toInt i

/-- The integer that a number is cut to, without its sign. -/
theorem natAbs_truncate (d : Double) : d.truncate.natAbs =
    if 0 ≤ d.exponent then d.mantissa * twoPow d.exponent.toNat
    else d.mantissa / twoPow (-d.exponent).toNat := by
  rw [truncate]
  split <;> simp only [Int.natAbs_neg, Int.natAbs_natCast]

theorem negative_eq_of_truncate (h : d.truncate ≠ 0) : d.negative = decide (d.truncate < 0) := by
  rw [truncate] at h ⊢
  generalize (if 0 ≤ d.exponent then d.mantissa * twoPow d.exponent.toNat
    else d.mantissa / twoPow (-d.exponent).toNat) = whole at h ⊢
  cases hneg : d.negative <;> simp only [hneg, if_true, Bool.false_eq_true, if_false] at h ⊢
  · exact (decide_eq_false (by omega)).symm
  · exact (decide_eq_true (by omega)).symm

theorem fraction_lt (d : Double) : d.fraction < implicitBit :=
  Nat.mod_lt _ (twoPow_pos 52)

theorem mantissa_lt (d : Double) : d.mantissa < 2 * implicitBit := by
  have := fraction_lt d
  rw [mantissa]
  split <;> omega

theorem implicitBit_le_mantissa (h : d.biased ≠ 0) : implicitBit ≤ d.mantissa := by
  rw [mantissa, if_neg h]
  exact Nat.le_add_right _ _

theorem exponent_of_normal (h : d.biased ≠ 0) : d.exponent = (d.biased : Int) - 1075 := by
  rw [exponent]
  omega

/-- A small whole number has a mantissa that is a multiple of the unit. -/
theorem mantissa_of_whole (hint : d.isIntegral = true) {n : Nat} (hn : n < twoPow 52)
    (htr : d.truncate.natAbs = n) :
    ∃ j : Nat, d.exponent = -(j : Int) ∧ d.mantissa = n * twoPow j := by
  simp only [isIntegral, Bool.and_eq_true, Bool.or_eq_true, decide_eq_true_eq] at hint
  rw [natAbs_truncate] at htr
  by_cases hpos : 0 ≤ d.exponent
  · -- such a number has all its digits before the point
    exfalso
    have hb : d.biased ≠ 0 := by
      intro hb
      rw [exponent, hb] at hpos
      exact absurd hpos (by decide)
    have hle : d.mantissa * 1 ≤ d.mantissa * twoPow d.exponent.toNat :=
      Nat.mul_le_mul_left _ (twoPow_pos _)
    have hge := implicitBit_le_mantissa hb
    have : implicitBit = twoPow 52 := rfl
    rw [if_pos hpos] at htr
    omega
  · obtain ⟨j, hj⟩ : ∃ j : Nat, d.exponent = -(j : Int) := ⟨(-d.exponent).toNat, by omega⟩
    have hdvd := hint.2.resolve_left hpos
    rw [if_neg hpos] at htr
    rw [hj, Int.neg_neg, Int.toNat_natCast] at htr hdvd
    exact ⟨j, hj, by rw [← htr, Nat.div_mul_cancel (Nat.dvd_of_mod_eq_zero hdvd)]⟩

theorem magnitude_of_mantissa_zero (h : d.mantissa = 0) : d.magnitude = 0 := by
  by_cases hb : d.biased = 0
  · have hfrac : d.fraction = 0 := by rwa [mantissa, if_pos hb] at h
    rw [← Nat.div_add_mod d.magnitude implicitBit]
    change implicitBit * d.biased + d.fraction = 0
    rw [hb, hfrac]
    rfl
  · have := implicitBit_le_mantissa hb
    have : 0 < implicitBit := twoPow_pos 52
    omega

/-- The bits of a small whole number. -/
theorem magnitude_of_whole (hint : d.isIntegral = true) {n : Nat} (h0 : n ≠ 0) (hn : n < twoPow 52)
    (htr : d.truncate.natAbs = n) : d.magnitude = exactMagnitude n 0 := by
  obtain ⟨j, hj, hman⟩ := mantissa_of_whole hint hn htr
  have hmlt := mantissa_lt d
  have hle : twoPow j ≤ n * twoPow j := Nat.le_mul_of_pos_left _ (by omega)
  have htwo : 2 * implicitBit = twoPow 53 := rfl
  have hjle : j ≤ 52 := by
    by_contra hj52
    have : twoPow 53 ≤ twoPow j := twoPow_le (by omega)
    omega
  have hb : d.biased ≠ 0 := by
    intro hb
    rw [exponent, hb] at hj
    change (-1074 : Int) = _ at hj
    omega
  have hmge := implicitBit_le_mantissa hb
  have hsplit : implicitBit = twoPow (52 - j) * twoPow j := by
    rw [← twoPow_add, Nat.sub_add_cancel hjle]
    rfl
  have hlog : n.log2 = 52 - j := by
    apply log2_eq_of_bounds
    · rw [hsplit, hman] at hmge
      exact Nat.le_of_mul_le_mul_right hmge (twoPow_pos j)
    · have hsucc : 2 * implicitBit = twoPow (52 - j + 1) * twoPow j := by
        rw [hsplit, twoPow_add]
        change _ = _ * 2 * _
        ring
      rw [hsucc, hman] at hmlt
      exact Nat.lt_of_mul_lt_mul_right hmlt
  have hsub : 52 - n.log2 = j := by omega
  have hbiased : d.biased - 1 = n.log2 + 1022 := by
    have := exponent_of_normal hb
    omega
  rw [magnitude_eq_of_normal hb, exactMagnitude, hsub, ← hman, Nat.sub_zero, hbiased]

theorem natAbs_int32_lt_implicitBit (i : Int32) : i.toInt.natAbs < twoPow 52 := by
  have hlo := i.minValue_le_toInt
  have hhi := i.toInt_le
  change -0x80000000 ≤ _ at hlo
  change _ ≤ 0x7fffffff at hhi
  have : twoPow 52 = 4503599627370496 := by decide
  omega

/-- A number that is exactly a 32-bit integer is the one the integer converts to. -/
theorem ofInt32_of_exactInt32? (h : d.exactInt32? = some i) : ofInt32 i = d := by
  unfold exactInt32? at h
  split at h
  case isFalse => cases h
  case isTrue hc =>
    simp only [Bool.and_eq_true, Bool.not_eq_true'] at hc
    obtain ⟨hint, hnz⟩ := hc
    have htr := int32?_eq_some h
    have hn := natAbs_int32_lt_implicitBit i
    by_cases h0 : i.toInt = 0
    · -- of the two zeros the negative one is excluded
      obtain ⟨j, -, hman⟩ := mantissa_of_whole hint (n := 0) (twoPow_pos 52) (by rw [htr, h0]; rfl)
      have hzero := magnitude_of_mantissa_zero (hman.trans (Nat.zero_mul _))
      have hneg : d.negative = false := by
        simpa only [isNegativeZero, isZero, hzero, decide_true, Bool.and_true] using hnz
      rw [ofInt32, h0, ← ofMagnitude_negative_magnitude d, hzero, hneg]
      rfl
    · obtain ⟨hmag, hneg, -⟩ := ofInt_fields h0 (natAbs_int32_lt i)
      have hdm := magnitude_of_whole hint (by omega) hn (by rw [htr])
      have hdneg : d.negative = decide (i.toInt < 0) := by
        rw [negative_eq_of_truncate (by rwa [htr]), htr]
      rw [← ofMagnitude_negative_magnitude d, hdm, hdneg, ← hmag, ← hneg, ofInt32,
        ofMagnitude_negative_magnitude]

end FastPath.Double
