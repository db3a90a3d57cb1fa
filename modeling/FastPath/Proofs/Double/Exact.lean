import FastPath.Double.Rounding
import Mathlib.Tactic.Linarith
import Mathlib.Tactic.Ring

/-!
# Exact numbers

A number `m · 2 ^ -k` whose significand `m` fits 53 bits is rounded to itself. Everything
said here about integers held as numbers follows from the magnitude that rounding gives
them.
-/

namespace FastPath.Double

/-! ### Powers of two -/

theorem twoPow_add (m n : Nat) : twoPow (m + n) = twoPow m * twoPow n := Nat.pow_add 2 m n

theorem twoPow_pos (n : Nat) : 0 < twoPow n := Nat.pow_pos (by decide)

theorem twoPow_le {m n : Nat} (h : m ≤ n) : twoPow m ≤ twoPow n :=
  Nat.pow_le_pow_right (by decide) h

theorem twoPow_lt {m n : Nat} (h : m < n) : twoPow m < twoPow n :=
  Nat.pow_lt_pow_right (by decide) h

theorem twoPow_log2_le {n : Nat} (h : n ≠ 0) : twoPow n.log2 ≤ n := Nat.log2_self_le h

theorem lt_twoPow_log2_succ (n : Nat) : n < twoPow (n.log2 + 1) := Nat.lt_log2_self

theorem log2_eq_of_bounds {n k : Nat} (hlo : twoPow k ≤ n) (hhi : n < twoPow (k + 1)) :
    n.log2 = k :=
  (Nat.log2_eq_iff (Nat.pos_iff_ne_zero.1 (Nat.lt_of_lt_of_le (twoPow_pos k) hlo))).2 ⟨hlo, hhi⟩

theorem log2_twoPow (k : Nat) : (twoPow k).log2 = k := Nat.log2_two_pow

theorem log2_lt_of_lt {n k : Nat} (h0 : n ≠ 0) (h : n < twoPow k) : n.log2 < k :=
  (Nat.log2_lt h0).2 h

/-- The significand of `m` shifted so that its highest bit is the implicit one. -/
theorem significand_bounds {m : Nat} (h0 : m ≠ 0) (hm : m < twoPow 53) :
    implicitBit ≤ m * twoPow (52 - m.log2) ∧ m * twoPow (52 - m.log2) < 2 * implicitBit := by
  have hL : m.log2 ≤ 52 := Nat.lt_succ_iff.1 (log2_lt_of_lt h0 hm)
  have hsplit : implicitBit = twoPow m.log2 * twoPow (52 - m.log2) := by
    rw [← twoPow_add, Nat.add_sub_cancel' hL]
    rfl
  have htwo : 2 * implicitBit = twoPow (m.log2 + 1) * twoPow (52 - m.log2) := by
    rw [twoPow_add, hsplit]
    change _ = _ * 2 * _
    ring
  rw [htwo]
  constructor
  · rw [hsplit]
    exact Nat.mul_le_mul_right _ (twoPow_log2_le h0)
  · exact Nat.mul_lt_mul_of_pos_right (lt_twoPow_log2_succ m) (twoPow_pos _)

/-! ### Rounding -/

theorem roundDiv_mul (q : Nat) {d : Nat} (hd : 0 < d) : roundDiv (q * d) d = q := by
  simp [roundDiv, Nat.mul_div_cancel _ hd, hd]

/-- The magnitude of `m · 2 ^ -k`. -/
def exactMagnitude (m k : Nat) : Nat :=
  (m.log2 + 1022 - k) * implicitBit + m * twoPow (52 - m.log2)

/-- The exponent at which `m · 2 ^ -k` has 53 bits. -/
theorem roundingExponent_exact {m k : Nat} (h0 : m ≠ 0) (hm : m < twoPow 53)
    (hk : k ≤ m.log2 + 1022) :
    roundingExponent m (twoPow k) = (m.log2 : Int) - k - 52 := by
  have hL : m.log2 ≤ 52 := Nat.lt_succ_iff.1 (log2_lt_of_lt h0 hm)
  have hneg : (-((m.log2 : Int) - k - 53)).toNat = k + (52 - m.log2) + 1 := by omega
  have hpos : ((m.log2 : Int) - k - 53).toNat = 0 := by omega
  have hquot : m * twoPow (k + (52 - m.log2) + 1) / (twoPow k * twoPow 0) =
      2 * (m * twoPow (52 - m.log2)) := by
    rw [twoPow_add, twoPow_add]
    change m * (twoPow k * twoPow (52 - m.log2) * 2) / (twoPow k * 1) = _
    rw [Nat.mul_one, show m * (twoPow k * twoPow (52 - m.log2) * 2) =
      2 * (m * twoPow (52 - m.log2)) * twoPow k by ring]
    exact Nat.mul_div_cancel _ (twoPow_pos k)
  have hge := (significand_bounds h0 hm).1
  simp only [roundingExponent, scaled, log2_twoPow, hneg, hpos, hquot]
  rw [if_pos (by omega)]
  omega

/-- **Exact numbers are rounded to themselves.** -/
theorem round_exact (negative : Bool) {m k : Nat} (h0 : m ≠ 0) (hm : m < twoPow 53)
    (hk : k ≤ m.log2 + 1022) :
    round negative m (twoPow k) = ofMagnitude negative (exactMagnitude m k) := by
  have hL : m.log2 ≤ 52 := Nat.lt_succ_iff.1 (log2_lt_of_lt h0 hm)
  have hneg : (-((m.log2 : Int) - k - 52)).toNat = k + (52 - m.log2) := by omega
  have hpos : ((m.log2 : Int) - k - 52).toNat = 0 := by omega
  have hexp : ((m.log2 : Int) - k - 52 + 1074).toNat = m.log2 + 1022 - k := by omega
  have hdiv : roundDiv (m * twoPow (k + (52 - m.log2))) (twoPow k * twoPow 0) =
      m * twoPow (52 - m.log2) := by
    rw [twoPow_add]
    change roundDiv (m * (twoPow k * twoPow (52 - m.log2))) (twoPow k * 1) = _
    rw [Nat.mul_one, show m * (twoPow k * twoPow (52 - m.log2)) =
      m * twoPow (52 - m.log2) * twoPow k by ring]
    exact roundDiv_mul _ (twoPow_pos k)
  have hmin : exactMagnitude m k ≤ infinityMagnitude := by
    have hlt := (significand_bounds h0 hm).2
    have hle : (m.log2 + 1022 - k) * implicitBit ≤ 1074 * implicitBit :=
      Nat.mul_le_mul_right _ (by omega)
    unfold exactMagnitude infinityMagnitude
    omega
  simp only [round, h0, if_false, roundingExponent_exact h0 hm hk, scaled, hneg, hpos, hdiv, hexp]
  change ofMagnitude negative (min (exactMagnitude m k) infinityMagnitude) = _
  rw [Nat.min_eq_left hmin]

/-! ### Fields of an exact number -/

theorem bits_ofMagnitude (negative : Bool) {x : Nat} (h : x < signPlace) :
    (ofMagnitude negative x).bits.toNat = (if negative then signPlace else 0) + x := by
  have hsize : UInt64.size = 2 * signPlace := rfl
  simp only [ofMagnitude, UInt64.toNat_ofNat']
  refine Nat.mod_eq_of_lt ?_
  change _ < UInt64.size
  cases negative <;> simp <;> omega

theorem magnitude_ofMagnitude (negative : Bool) {x : Nat} (h : x < signPlace) :
    (ofMagnitude negative x).magnitude = x := by
  rw [magnitude, bits_ofMagnitude negative h]
  cases negative <;> simpa using Nat.mod_eq_of_lt h

theorem negative_ofMagnitude (negative : Bool) {x : Nat} (h : x < signPlace) :
    (ofMagnitude negative x).negative = negative := by
  rw [Double.negative, bits_ofMagnitude negative h]
  cases negative
  · simpa using h
  · simp

/-- A number is its sign and its magnitude. -/
theorem ofMagnitude_negative_magnitude (d : Double) : ofMagnitude d.negative d.magnitude = d := by
  have hsize : UInt64.size = 2 * signPlace := rfl
  have hlt : d.bits.toNat < UInt64.size := d.bits.toNat_lt
  have hbits : (if d.negative then signPlace else 0) + d.magnitude = d.bits.toNat := by
    unfold Double.negative magnitude
    by_cases hs : signPlace ≤ d.bits.toNat
    · rw [Nat.mod_eq_sub_mod hs, Nat.mod_eq_of_lt (by omega)]
      simp only [hs, decide_true, if_true]
      omega
    · rw [Nat.mod_eq_of_lt (by omega)]
      simp [hs]
  rw [ofMagnitude, hbits]
  cases d
  simp

variable {m k : Nat}

theorem exactMagnitude_lt (h0 : m ≠ 0) (hm : m < twoPow 53) :
    exactMagnitude m k < infinityMagnitude := by
  have hL : m.log2 ≤ 52 := Nat.lt_succ_iff.1 (log2_lt_of_lt h0 hm)
  have hlt := (significand_bounds h0 hm).2
  have hle : (m.log2 + 1022 - k) * implicitBit ≤ 1074 * implicitBit :=
    Nat.mul_le_mul_right _ (by omega)
  unfold exactMagnitude infinityMagnitude
  have : 0 < implicitBit := twoPow_pos 52
  omega

/-- The exponent field and the fraction of an exact number. -/
theorem exactMagnitude_div_mod (h0 : m ≠ 0) (hm : m < twoPow 53) (hk : k ≤ m.log2 + 1022) :
    exactMagnitude m k / implicitBit = m.log2 + 1023 - k ∧
      exactMagnitude m k % implicitBit = m * twoPow (52 - m.log2) - implicitBit := by
  obtain ⟨hge, hlt⟩ := significand_bounds h0 hm
  have hpos : 0 < implicitBit := twoPow_pos 52
  have hsplit : exactMagnitude m k =
      implicitBit * (m.log2 + 1023 - k) + (m * twoPow (52 - m.log2) - implicitBit) := by
    have hsucc : m.log2 + 1023 - k = (m.log2 + 1022 - k) + 1 := by omega
    rw [hsucc, Nat.mul_add, Nat.mul_comm implicitBit, exactMagnitude]
    omega
  rw [hsplit]
  constructor
  · rw [Nat.mul_add_div hpos, Nat.div_eq_of_lt (by omega), Nat.add_zero]
  · rw [Nat.mul_add_mod, Nat.mod_eq_of_lt (by omega)]

/-- What the fields of a pattern say, for the pattern of an exact number. -/
theorem fields_exact {d : Double} (h0 : m ≠ 0) (hm : m < twoPow 53) (hk : k ≤ m.log2 + 1022)
    (hd : d.magnitude = exactMagnitude m k) :
    d.isFinite ∧ d.isZero = false ∧ d.mantissa = m * twoPow (52 - m.log2) ∧
      d.exponent = (m.log2 : Int) - 52 - k := by
  obtain ⟨hdiv, hmod⟩ := exactMagnitude_div_mod h0 hm hk
  obtain ⟨hge, -⟩ := significand_bounds h0 hm
  have hpos : 0 < implicitBit := twoPow_pos 52
  have hbiased : d.biased = m.log2 + 1023 - k := by rw [biased, hd, hdiv]
  have hfraction : d.fraction = m * twoPow (52 - m.log2) - implicitBit := by
    rw [fraction, hd, hmod]
  refine ⟨?_, ?_, ?_, ?_⟩
  · simpa [isFinite, hd] using exactMagnitude_lt h0 hm
  · simp only [isZero, hd, exactMagnitude, decide_eq_false_iff_not]
    omega
  · rw [mantissa, hbiased, hfraction, if_neg (by omega)]
    omega
  · rw [exponent, hbiased]
    omega

/-- The magnitude of a number with an implicit bit, by its mantissa and exponent. -/
theorem magnitude_eq_of_normal {d : Double} (h : d.biased ≠ 0) :
    d.magnitude = (d.biased - 1) * implicitBit + d.mantissa := by
  have hpos : 0 < implicitBit := twoPow_pos 52
  have hdm := Nat.div_add_mod d.magnitude implicitBit
  rw [mantissa, if_neg h]
  obtain ⟨b, hb⟩ : ∃ b, d.biased = b + 1 := ⟨d.biased - 1, by omega⟩
  have hb' : d.magnitude / implicitBit = b + 1 := hb
  have hf : d.magnitude % implicitBit = d.fraction := rfl
  rw [hb', hf, Nat.mul_add, Nat.mul_one, Nat.mul_comm] at hdm
  rw [hb, Nat.add_sub_cancel]
  omega

end FastPath.Double
