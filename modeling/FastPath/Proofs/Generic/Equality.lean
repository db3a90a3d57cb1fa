import FastPath.Proofs.Generic.Safety

/-!
# Loose equality is symmetric

Loose equality turns its operands into primitives one after the other, and the order could matter,
since the text of an object is interned on the way. But two objects are compared by identity, so at
most one operand becomes text. Both orders then reach the same heap, and compare the same two
primitives there.

## Main results

* `primitiveEquals_swap`: primitives compare the same both ways.
* `looseEquals_symmetric`: so do all values, and strict equality is a special case.
-/

namespace FastPath

open HeapM

variable {h : Heap} {a b v : Value}

theorem Double.eq_comm (x y : Double) : x.eq y = y.eq x := by
  simp [eq, unordered, Bool.or_comm x.isNaN, BEq.comm]

theorem strictEquals_comm (a b : Value) : strictEquals a b = strictEquals b a := by
  unfold strictEquals
  cases a.double? <;> cases b.double? <;> simp [Double.eq_comm, BEq.comm]

theorem comparableStrictly_comm (a b : Value) :
    comparableStrictly a b = comparableStrictly b a := by
  simp [comparableStrictly, eq_comm, Bool.and_comm]

theorem comparableStrictly_of_strictEquals (hs : strictEquals a b) : comparableStrictly a b := by
  unfold strictEquals at hs
  split at hs
  · cases a <;> cases b <;> first | rfl | contradiction
  · simp [comparableStrictly, eq_of_beq hs]
  · cases hs

/-! ### Primitives -/

theorem toPrimitive_primitive (hv : v.object? = none) (h : Heap) : toPrimitive v h = .ok v h := by
  cases v <;> first | rfl | cases hv

/-- A value becomes a primitive, and at most a text is interned. -/
theorem toPrimitive_ok (hr : h.Readable) (hv : h.Live v) : ∃ w h', toPrimitive v h = .ok w h' ∧
    h.Extends h' ∧ h'.objects = h.objects ∧ h'.Live w ∧ w.object? = none := by
  cases ho : v.object? with
  | none => exact ⟨v, h, toPrimitive_primitive ho h, .refl h, rfl, hv, ho⟩
  | some o =>
    cases v <;> cases ho
    obtain ⟨text, ht, -⟩ := Heap.textTo_ok hr (.refl h) Heap.textDepth hv
    refine ⟨.string (h.intern text).1, (h.intern text).2, ?_, Heap.intern_extends h text, rfl,
      Heap.live_intern h text, rfl⟩
    rw [toPrimitive, bind_ok (look_ok ht)]
    rfl

theorem exists_toNumber (hv : h.Live v) (ho : v.object? = none) : ∃ x, h.toNumber v = .ok x := by
  cases v with
  | string s =>
    obtain ⟨text, ht⟩ := Heap.string_ok hv
    exact ⟨_, by rw [Heap.toNumber, ht]; rfl⟩
  | object => cases ho
  | _ => exact ⟨_, rfl⟩

theorem primitiveEquals_swap (ha : h.Live a) (hb : h.Live b) (hao : a.object? = none)
    (hbo : b.object? = none) :
    ∃ r, h.primitiveEquals a b = .ok r ∧ h.primitiveEquals b a = .ok r := by
  obtain ⟨x, hx⟩ := exists_toNumber ha hao
  obtain ⟨y, hy⟩ := exists_toNumber hb hbo
  unfold Heap.primitiveEquals
  rw [comparableStrictly_comm b a, strictEquals_comm b a, hx, hy]
  split
  · exact ⟨_, rfl, rfl⟩
  · exact ⟨x.eq y, rfl, congrArg Except.ok (Double.eq_comm y x)⟩

/-! ### All values -/

/-- Equality of operands that become primitives first. -/
def coercedEquals (a b : Value) : HeapM Bool := do
  let a ← toPrimitive a
  let b ← toPrimitive b
  look (·.primitiveEquals a b)

/-- The order does not matter when one operand is a primitive already. -/
theorem coercedEquals_swap (hr : h.Readable) (ha : h.Live a) (hb : h.Live b)
    (hbo : b.object? = none) : ∃ r h', coercedEquals a b h = .ok r h' ∧
      coercedEquals b a h = .ok r h' ∧ h'.objects = h.objects := by
  obtain ⟨w, h', hw, he, hobjects, hlive, hwo⟩ := toPrimitive_ok hr ha
  obtain ⟨r, hr₁, hr₂⟩ := primitiveEquals_swap hlive (hb.mono he) hwo hbo
  refine ⟨r, h', ?_, ?_, hobjects⟩
  · rw [coercedEquals, bind_ok hw, bind_ok (toPrimitive_primitive hbo h'), look_ok hr₁]
  · rw [coercedEquals, bind_ok (toPrimitive_primitive hbo h), bind_ok hw, look_ok hr₂]

theorem looseEquals_eq (a b : Value) : looseEquals a b =
    if comparableStrictly a b then pure (strictEquals a b)
    else if a.isNullish || b.isNullish then pure (a.isNullish && b.isNullish)
    else coercedEquals a.booleanToInt32 b.booleanToInt32 := rfl

/-- Of two operands that are not compared strictly, one is no object. -/
theorem object?_of_not_comparable (hc : ¬comparableStrictly a b) :
    a.booleanToInt32.object? = none ∨ b.booleanToInt32.object? = none := by
  cases a with
  | object =>
    cases b with
    | object => exact absurd rfl hc
    | _ => exact .inr rfl
  | _ => exact .inl rfl

/-- On a heap with live handles loose equality of live values succeeds, with one answer for both
orders, and leaves every object as it is. It holds where strict equality does, and is strict
equality on values of one tag and on numbers. -/
theorem looseEquals_symmetric (hr : h.Readable) (ha : h.Live a) (hb : h.Live b) :
    ∃ r h', looseEquals a b h = .ok r h' ∧ looseEquals b a h = .ok r h' ∧
      h'.objects = h.objects ∧ (strictEquals a b → r = true) ∧
      (a.tag = b.tag ∨ (a.isNumber ∧ b.isNumber) → r = strictEquals a b) := by
  rw [looseEquals_eq, looseEquals_eq, comparableStrictly_comm b, strictEquals_comm b,
    Bool.or_comm b.isNullish, Bool.and_comm b.isNullish]
  by_cases hc : comparableStrictly a b
  · simp only [if_pos hc]
    exact ⟨strictEquals a b, h, rfl, rfl, rfl, id, fun _ => rfl⟩
  · have hstrict (r : Bool) : (strictEquals a b → r = true) ∧
        (a.tag = b.tag ∨ (a.isNumber ∧ b.isNumber) → r = strictEquals a b) :=
      ⟨fun hs => absurd (comparableStrictly_of_strictEquals hs) hc,
        fun hs => absurd (by simpa [comparableStrictly] using hs) hc⟩
    simp only [if_neg hc]
    by_cases hn : a.isNullish || b.isNullish
    · simp only [if_pos hn]
      exact ⟨_, h, rfl, rfl, rfl, hstrict _⟩
    · simp only [if_neg hn]
      have ha' := live_booleanToInt32 ha
      have hb' := live_booleanToInt32 hb
      rcases object?_of_not_comparable hc with hao | hbo
      · obtain ⟨r, h', h₁, h₂, hobjects⟩ := coercedEquals_swap hr hb' ha' hao
        exact ⟨r, h', h₂, h₁, hobjects, hstrict r⟩
      · obtain ⟨r, h', h₁, h₂, hobjects⟩ := coercedEquals_swap hr ha' hb' hbo
        exact ⟨r, h', h₁, h₂, hobjects, hstrict r⟩

/-- The array `[5]` and a boolean. -/
theorem looseEquals_symmetric_array :
    let h := (Heap.new.newArray #[.int32 5] 1).2
    let a : Value := .object ⟨0⟩
    let b : Value := .boolean true
    h.Readable ∧ h.Live a ∧ h.Live b ∧
    ∃ r h', looseEquals a b h = .ok r h' ∧ looseEquals b a h = .ok r h' ∧
      h'.objects = h.objects ∧ (strictEquals a b → r = true) ∧
      (a.tag = b.tag ∨ (a.isNumber ∧ b.isNumber) → r = strictEquals a b) := by
  intro h a b
  have hw : h.WellFormed := (Heap.alloc_keeps Heap.new_wellFormed
    (Object.array_wellFormed Heap.new_wellFormed
      (fun v hv => by obtain rfl := Array.mem_singleton.1 hv; trivial) 1)).2
  have ha : h.Live a := Nat.zero_lt_one
  exact ⟨hw.readable, ha, trivial, looseEquals_symmetric hw.readable ha trivial⟩

end FastPath
