import FastPath.Generic.Convert
import FastPath.Proofs.Double.Integer
import Mathlib.Data.Nat.Digits.Defs

/-!
# Numerals of array indices

The shortest digits of a whole number are its decimal digits: the reals that round to a small
whole number are less than one away from it, so a multiple of a power of ten is among them only
if it is the number itself. A number that is an array index is therefore written like the index.
-/

namespace FastPath

/-! ### Decimals -/

/-- The decimal is a whole number other than zero. -/
def Decimal.Whole (d : Decimal) (n : Nat) : Prop :=
  n ≠ 0 ∧ ∃ e : Nat, d.exp = e ∧ d.digits * 10 ^ e = n

variable {d : Decimal} {n : Nat}

theorem Decimal.Whole.strip (h : d.Whole n) (fuel : Nat) : (Decimal.strip fuel d).Whole n := by
  induction fuel generalizing d with
  | zero => exact h
  | succ fuel ih =>
    unfold Decimal.strip
    split
    · next hzero =>
      obtain ⟨h0, e, he, hn⟩ := h
      refine ih ⟨h0, e + 1, by simp [he], ?_⟩
      rw [← hn, Nat.pow_succ', ← Nat.mul_assoc,
        Nat.div_mul_cancel (Nat.dvd_of_mod_eq_zero hzero.1)]
    · exact h

/-- Zeros behind the digits of a number. -/
theorem toDigits_mul_tenPow (h : n ≠ 0) (e : Nat) :
    Nat.toDigits 10 (n * 10 ^ e) = Nat.toDigits 10 n ++ List.replicate e '0' := by
  induction e with
  | zero => simp
  | succ e ih =>
    have hpos : 0 < n * 10 ^ e := Nat.mul_pos (Nat.pos_of_ne_zero h) (Nat.pow_pos (by decide))
    have hstep := Nat.toDigits_append_toDigits (b := 10) (n := n * 10 ^ e) (d := 0) (by decide)
      hpos (by decide)
    rw [List.replicate_succ', ← List.append_assoc, ← ih, Nat.pow_succ, ← Nat.mul_assoc,
      Nat.mul_comm _ 10]
    exact hstep.symm

theorem Decimal.Whole.toDigits (h : d.Whole n) : ∃ e : Nat, d.exp = e ∧
    Nat.toDigits 10 n = Nat.toDigits 10 d.digits ++ List.replicate e '0' := by
  obtain ⟨h0, e, he, rfl⟩ := h
  exact ⟨e, he, toDigits_mul_tenPow (Nat.ne_zero_of_mul_ne_zero_left h0) e⟩

/-! ### The search -/

namespace Double

/-- A number that is a whole number other than zero, with nothing below its last bit. -/
def Holds (d : Double) (n : Nat) : Prop :=
  n ≠ 0 ∧ ∃ j : Nat, d.exponent = -(j : Int) ∧ d.mantissa = n * twoPow j

variable {n : Nat} {d : Double}

/-- Nothing else rounds to a whole number that is a whole number. -/
theorem eq_of_near {x w : Nat} (hw : 4 ≤ w) (hlo : n * w ≤ x * w + 2) (hhi : x * w ≤ n * w + 2) :
    x = n := by
  rcases Nat.lt_trichotomy x n with h | h | h
  · have := Nat.mul_le_mul_right w h
    rw [Nat.succ_mul] at this
    omega
  · exact h
  · have := Nat.mul_le_mul_right w h
    rw [Nat.succ_mul] at this
    omega

/-- On the grid of a power of ten only the number itself reads back. -/
theorem neighbour?_whole (h : d.Holds n) (g : Nat) :
    (∀ k, d.neighbour? g = some k → k * 10 ^ g = n) ∧ (g = 0 → d.neighbour? g ≠ none) := by
  obtain ⟨h0, j, he, hm⟩ := h
  obtain ⟨w, hw, hmid, hgrid⟩ : ∃ w, 4 ≤ w ∧ 4 * d.mantissa = n * w ∧
      ∀ x, onGrid x (d.exponent - 2) g = ⟨x, w * 10 ^ g⟩ := by
    refine ⟨twoPow (j + 2), twoPow_le (m := 2) (Nat.le_add_left 2 j), ?_, fun x => ?_⟩
    · rw [hm, twoPow_add]
      change 4 * (n * twoPow j) = n * (twoPow j * 4)
      ring
    · have hzero : (-(j : Int) - 2).toNat = 0 := by omega
      have hback : (2 + (j : Int)).toNat = j + 2 := by omega
      simp [onGrid, he, hzero, hback, twoPow, tenPow]
  have hpos : 0 < w := by omega
  obtain ⟨lo, hint, hlo, hlo'⟩ : ∃ lo, d.roundingInterval = (lo, n * w, n * w + 2) ∧
      n * w - 2 ≤ lo ∧ lo < n * w := by
    have : 1 * 4 ≤ n * w := Nat.mul_le_mul (Nat.pos_of_ne_zero h0) hw
    refine ⟨_, by rw [roundingInterval, hmid], ?_, ?_⟩ <;> split <;> omega
  -- whether the ends of the interval belong to it does not matter
  have hdown : ∀ x, (if d.mantissa % 2 = 0 then lo ≤ x else lo < x) → lo ≤ x := by
    intro x hx
    split at hx <;> omega
  have hup : ∀ x, (if d.mantissa % 2 = 0 then x ≤ n * w + 2 else x < n * w + 2) →
      x ≤ n * w + 2 := by
    intro x hx
    split at hx <;> omega
  have hle := Nat.div_mul_le_self (n * w) (w * 10 ^ g)
  have hlt := Nat.lt_div_mul_add (a := n * w) (b := w * 10 ^ g) (Nat.mul_pos hpos (by positivity))
  simp only [neighbour?, hint, hgrid]
  generalize hq : n * w / (w * 10 ^ g) = q at hle hlt
  constructor
  · intro k hk
    have hnear : k = q ∧ lo ≤ q * (w * 10 ^ g) ∨
        k = q + 1 ∧ (q + 1) * (w * 10 ^ g) ≤ n * w + 2 := by
      split at hk
      · next hd hu =>
        cases hk
        split
        · exact .inr ⟨rfl, hup _ (of_decide_eq_true hu)⟩
        · exact .inl ⟨rfl, hdown _ (of_decide_eq_true hd)⟩
      · next hd _ => exact .inl ⟨(Option.some.inj hk).symm, hdown _ (of_decide_eq_true hd)⟩
      · next _ hu => exact .inr ⟨(Option.some.inj hk).symm, hup _ (of_decide_eq_true hu)⟩
      · cases hk
    have hscale : k * 10 ^ g * w = k * (w * 10 ^ g) := by ring
    refine eq_of_near hw ?_ ?_ <;> rw [hscale] <;> rcases hnear with ⟨rfl, hk⟩ | ⟨rfl, hk⟩ <;>
      rw [Nat.add_mul] at * <;> omega
  · rintro rfl
    obtain rfl : n = q := by rw [← hq, Nat.pow_zero, Nat.mul_one, Nat.mul_div_cancel _ hpos]
    have hd : if d.mantissa % 2 = 0 then lo ≤ n * (w * 10 ^ 0) else lo < n * (w * 10 ^ 0) := by
      rw [Nat.pow_zero, Nat.mul_one]
      split <;> omega
    simp only [hd, decide_true]
    split <;> simp_all

/-- The search ends on a grid that the number is on. -/
theorem searchDigits_whole (h : d.Holds n) {p : Int} {g fuel k : Nat} (hg : p - k + 1 = g)
    (hfuel : g < fuel) : (d.searchDigits p fuel k).Whole n := by
  induction fuel generalizing g k with
  | zero => exact absurd hfuel (Nat.not_lt_zero g)
  | succ fuel ih =>
    obtain ⟨hsome, hzero⟩ := neighbour?_whole h g
    unfold searchDigits
    simp only [hg]
    split
    · next k hk => exact Decimal.Whole.strip ⟨h.1, g, rfl, hsome k hk⟩ 20
    · next hnone =>
      cases g with
      | zero => exact absurd hnone (hzero rfl)
      | succ g => exact ih (g := g) (by push_cast at hg ⊢; omega) (by omega)

/-- A whole number below 2^32 has its leading digit before the point. -/
theorem leadingPower_whole (h : d.Holds n) (hn : n.log2 < 32) :
    0 ≤ d.leadingPower ∧ d.leadingPower < 18 := by
  obtain ⟨h0, j, he, hm⟩ := h
  have hlog : (d.mantissa.log2 : Int) + d.exponent = n.log2 := by
    have : (n * twoPow j).log2 = n.log2 + j := by
      refine log2_eq_of_bounds ?_ ?_
      · rw [twoPow_add]
        exact Nat.mul_le_mul_right _ (twoPow_log2_le h0)
      · rw [Nat.add_right_comm, twoPow_add]
        exact Nat.mul_lt_mul_of_pos_right (lt_twoPow_log2_succ n) (twoPow_pos j)
    rw [hm, he, this]
    omega
  have hzero : (onGrid d.mantissa d.exponent 0).den ≤ (onGrid d.mantissa d.exponent 0).num := by
    have hneg : (-(j : Int)).toNat = 0 := by omega
    simpa [onGrid, he, hm, hneg, twoPow, tenPow] using Nat.one_le_iff_ne_zero.2 h0
  unfold leadingPower
  simp only [hlog, Int.fdiv_eq_ediv_of_nonneg _ (by decide : (0 : Int) ≤ 100000)]
  obtain ⟨guess, hguess⟩ : ∃ guess : Nat, (n.log2 : Int) * 30103 / 100000 = guess ∧ guess < 10 :=
    ⟨n.log2 * 30103 / 100000, by push_cast; rfl, by omega⟩
  rw [hguess.1]
  split
  · omega
  · split
    · omega
    · next hnot =>
      have : guess ≠ 0 := by
        rintro rfl
        exact hnot (decide_eq_true hzero)
      omega

end Double

/-- A whole number is written without point or exponent. -/
theorem Numeral.write_whole {d : Double} (h : d.shortest.Whole n) (hn : n < Double.twoPow 32)
    (hfin : d.isFinite) (hzero : d.isZero = false) (hneg : d.negative = false) :
    write d = ofNat n := by
  obtain ⟨e, he, hdigits⟩ := h.toDigits
  have hcount : Double.digitCount n ≤ 10 :=
    Nat.toDigits_length 10 _ 10 (by decide) (Nat.lt_trans hn (by decide))
  have hrange : -6 ≤ d.shortest.leading ∧ d.shortest.leading ≤ 20 := by
    rw [Double.digitCount, hdigits, List.length_append, List.length_replicate] at hcount
    rw [Decimal.leading, he, Double.digitCount]
    omega
  simp [write, Double.isNaN_of_isFinite hfin, Double.isInfinite_of_isFinite hfin, hzero, hneg,
    hrange, positional, he, Decimal.text, ofNat, hdigits]

/-- **An array index is written alike however it is held.** -/
theorem Numeral.write_of_arrayIndex? {d : Double} (h : d.arrayIndex? = some n) :
    write d = ofNat n := by
  unfold Double.arrayIndex? at h
  split at h
  case isFalse => cases h
  case isTrue hc =>
    simp only [Bool.and_eq_true, decide_eq_true_eq] at hc
    obtain ⟨⟨hint, hpos⟩, hlt⟩ := hc
    obtain ⟨n, htr⟩ := Int.eq_ofNat_of_zero_le hpos
    obtain rfl : n = _ := by simpa [htr] using h
    have hn : n < Double.twoPow 32 := by
      change _ < 2 ^ 32
      omega
    have hfin : d.isFinite := by
      rw [Double.isIntegral, Bool.and_eq_true] at hint
      exact hint.1
    obtain ⟨j, hj, hman⟩ := Double.mantissa_of_whole hint (n := n)
      (Nat.lt_trans hn (Double.twoPow_lt (by decide))) (by rw [htr]; rfl)
    by_cases h0 : n = 0
    · subst h0
      have hmag := Double.magnitude_of_mantissa_zero (hman.trans (Nat.zero_mul _))
      simp [write, Double.isNaN_of_isFinite hfin, Double.isZero, hmag]
      rfl
    · have hzero : d.isZero = false := by
        refine decide_eq_false fun hmag => Nat.mul_ne_zero h0 (Double.twoPow_pos j).ne' ?_
        rw [← hman]
        simp [Double.mantissa, Double.biased, Double.fraction, hmag]
      have hneg : d.negative = false := by
        rw [Double.negative_eq_of_truncate (by omega)]
        exact decide_eq_false (by omega)
      have hholds : d.Holds n := ⟨h0, j, hj, hman⟩
      obtain ⟨hlo, hhi⟩ := Double.leadingPower_whole hholds (Double.log2_lt_of_lt h0 hn)
      exact write_whole (Double.searchDigits_whole hholds (g := d.leadingPower.toNat) (by omega)
        (by omega)) hn hfin hzero hneg

end FastPath
