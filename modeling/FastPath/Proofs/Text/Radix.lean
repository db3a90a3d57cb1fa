import FastPath.Generic.Convert
import FastPath.Proofs.Double.Exact

/-!
# Radix literals

What follows a radix mark is read as an unsigned word: one plus sign may stand in front of the
digits, and a value of `2 ^ 64` or more is refused however the digits are written.
-/

namespace FastPath

theorem Double.isNaN_ofNat (n : Nat) : (ofNat n).isNaN = false := by
  have hmagnitude {x : Nat} (hx : x ≤ infinityMagnitude) : (ofMagnitude false x).isNaN = false := by
    rw [isNaN, magnitude_ofMagnitude false (Nat.lt_of_le_of_lt hx (by decide))]
    simpa using hx
  unfold ofNat round
  split
  · exact hmagnitude (Nat.zero_le _)
  · exact hmagnitude (Nat.min_le_right _ _)

/-- Text without white space at its ends. -/
theorem Text.trim_eq_self {cs : List Char} (hfirst : ∀ c ∈ cs.head?, isBlank c = false)
    (hlast : ∀ c ∈ cs.getLast?, isBlank c = false) : trim cs = cs := by
  have hdrop {cs : List Char} (h : ∀ c ∈ cs.head?, isBlank c = false) :
      cs.dropWhile isBlank = cs := by
    cases cs with
    | nil => rfl
    | cons c cs => exact List.dropWhile_cons_of_neg (by simp [h c rfl])
  rw [trim, hdrop hfirst, hdrop (by rwa [List.head?_reverse]), List.reverse_reverse]

namespace Numeral

/-- The radix that a letter after a zero stands for. -/
def radix? : Char → Option Nat
  | 'x' | 'X' => some 16
  | 'o' | 'O' => some 8
  | 'b' | 'B' => some 2
  | _ => none

/-- The text is made of digits, after at most one plus sign, whose value `n` fits in a word. -/
def Denotes (radix : Nat) (t : List Char) (n : Nat) : Prop :=
  n < UInt64.size ∧ ∃ ds ≠ [], (t = ds ∨ t = '+' :: ds) ∧ digitsValue? radix ds = some n

/-- The text without a plus sign in front. -/
def unsigned (t : List Char) : List Char :=
  match t with
  | '+' :: ds => ds
  | _ => t

variable {radix n : Nat} {t ds : List Char}

theorem eq_unsigned (t : List Char) : t = unsigned t ∨ t = '+' :: unsigned t := by
  unfold unsigned
  split <;> simp

/-- A plus sign is no digit, so what is left after one plus sign is all that can be digits. -/
theorem unsigned_eq (hv : digitsValue? radix ds = some n) (ht : t = ds ∨ t = '+' :: ds) :
    unsigned t = ds := by
  rcases ht with rfl | rfl
  · unfold unsigned
    split
    · simp [digitsValue?, digit?] at hv
    · rfl
  · rfl

theorem readRadix_eq (radix : Nat) (t : List Char) : readRadix radix t =
    if (unsigned t).isEmpty then Double.nan
    else match digitsValue? radix (unsigned t) with
      | some n => if n < UInt64.size then Double.ofNat n else Double.nan
      | none => Double.nan := rfl

theorem readRadix_of_denotes (h : Denotes radix t n) : readRadix radix t = Double.ofNat n := by
  obtain ⟨hn, ds, hne, ht, hv⟩ := h
  simp [readRadix_eq, unsigned_eq hv ht, hne, hv, hn]

theorem exists_denotes (h : (readRadix radix t).isNaN = false) : ∃ n, Denotes radix t n := by
  have hnan : Double.nan.isNaN = true := by decide
  rw [readRadix_eq] at h
  split at h
  · simp [hnan] at h
  · next hne =>
    split at h
    · next n hv =>
      split at h
      · next hn => exact ⟨n, hn, unsigned t, by simpa using hne, eq_unsigned t, hv⟩
      · simp [hnan] at h
    · simp [hnan] at h

/-- Text with a radix mark that does not end in white space denotes a number exactly if digits of
the radix follow, after at most one plus sign, with a value below `2 ^ 64`. Then it is the number
nearest to that value. -/
theorem read_radix (mark : Char) (radix : Nat) (t : List Char) (hmark : radix? mark = some radix)
    (hlast : ∀ c ∈ t.getLast?, Text.isBlank c = false) :
    let text := String.ofList ('0' :: mark :: t)
    ((read text).isNaN = false ↔ ∃ n, Denotes radix t n) ∧
    (∀ n, Denotes radix t n → read text = Double.ofNat n) ∧
    ∀ (h : Heap) (s : StrId), h.string s = .ok text → h.toNumber (.string s) = .ok (read text) := by
  intro text
  have hblank : Text.isBlank mark = false := by
    unfold radix? at hmark
    split at hmark <;> first | rfl | cases hmark
  have hread : read text = readRadix radix t := by
    have htrim : Text.trim text.toList = '0' :: mark :: t := by
      rw [String.toList_ofList]
      refine Text.trim_eq_self (by simp; decide) ?_
      cases t with
      | nil => simpa using hblank
      | cons => simpa using hlast
    rw [read, htrim]
    unfold radix? at hmark
    split at hmark <;> cases hmark <;> rfl
  rw [hread]
  refine ⟨⟨exists_denotes, fun ⟨n, hn⟩ => ?_⟩, fun n => readRadix_of_denotes, fun h s hs => ?_⟩
  · rw [readRadix_of_denotes hn]
    exact Double.isNaN_ofNat n
  · rw [Heap.toNumber, hs, ← hread]
    rfl

/-- A plus sign after the mark is passed over. -/
theorem read_radix_plus : radix? 'x' = some 16 ∧
    (∀ c ∈ ['+', '5'].getLast?, Text.isBlank c = false) ∧ Denotes 16 ['+', '5'] 5 ∧
    read (String.ofList ['0', 'x', '+', '5']) = Double.ofNat 5 := by
  have hlast : ∀ c ∈ ['+', '5'].getLast?, Text.isBlank c = false := by
    intro c hc
    cases hc
    rfl
  have hfive : Denotes 16 ['+', '5'] 5 := ⟨by decide, ['5'], by decide, .inr rfl, by decide⟩
  exact ⟨rfl, hlast, hfive, (read_radix 'x' 16 ['+', '5'] rfl hlast).2.1 5 hfive⟩

end Numeral

end FastPath
