import FastPath.Proofs.Double.Sum
import FastPath.Proofs.Double.Order
import FastPath.Proofs.Generic.Safety
import FastPath.Proofs.Stub.Meaning

/-!
# Generic operations and observable identity

A number may be an integer or a double, and a NaN may have any payload. The conversion to integers
does not tell such values apart, and so no bitwise operator does.

## Main results

* `Heap.toInt32_same`: the conversion to integers respects `Value.same`.
* `Stub.apply_same`: the bitwise operators respect it too.
* `Stub.heap_of_apply`: they leave the heap as it is.
-/

namespace FastPath

open Double (ofInt32)

/-! ### Numbers -/

theorem Double.isFinite_of_isNaN {a : Double} (h : a.isNaN) : a.isFinite = false := by
  simp only [isNaN, isFinite, decide_eq_true_eq, decide_eq_false_iff_not] at h ⊢
  omega

theorem Double.toInt32_same {a b : Double} (h : a.same b) : a.toInt32 = b.toInt32 := by
  rcases same_iff.1 h with ⟨ha, hb⟩ | rfl
  · simp [toInt32, isFinite_of_isNaN ha, isFinite_of_isNaN hb]
  · rfl

theorem Double.truncateInt32?_same {a b : Double} (h : a.same b) :
    a.truncateInt32? = b.truncateInt32? := by
  rcases same_iff.1 h with ⟨ha, hb⟩ | rfl
  · simp [truncateInt32?, isFinite_of_isNaN ha, isFinite_of_isNaN hb]
  · rfl

theorem Double.exactInt32?_same {a b : Double} (h : a.same b) : a.exactInt32? = b.exactInt32? := by
  rcases same_iff.1 h with ⟨ha, hb⟩ | rfl
  · simp [exactInt32?, isIntegral, isFinite_of_isNaN ha, isFinite_of_isNaN hb]
  · rfl

theorem Double.exactInt32?_ofInt {n : Int} (hn : n.natAbs < twoPow 53) :
    (ofInt n).exactInt32? = int32? n := by
  simp [exactInt32?, isIntegral_ofInt hn, isNegativeZero_ofInt hn, truncate_ofInt hn]

/-! ### Conversions -/

theorem Value.isNumber_iff_tag {v : Value} : v.isNumber ↔ v.tag = .int32 ∨ v.tag = .double := by
  cases v <;> simp [isNumber, tag]

namespace Heap

variable {h : Heap} {u v : Value}

theorem toInt32_number {x : Double} (hv : v.double? = some x) : h.toInt32 v = .ok x.toInt32 := by
  cases v <;> cases hv
  · simp [toInt32, Double.toInt32_ofInt32]
  · rfl

theorem toInt32_same (hs : u.same v) : h.toInt32 u = h.toInt32 v := by
  rcases Value.same_iff.1 hs with ⟨x, y, hu, hv, hxy⟩ | ⟨-, rfl⟩
  · rw [toInt32_number hu, toInt32_number hv, Double.toInt32_same hxy]
  · rfl

end Heap

/-! ### The operators -/

/-- Values that are the same. -/
abbrev Same (a b : Value) : Prop := a.same b

namespace Stub

/-- The stub is a bitwise operator. -/
def isBitwise : Stub → Bool
  | bit _ | bitNot => true
  | _ => false

variable {stub : Stub} {us vs : List Value} {h h' : Heap}

/-- **The bitwise operators respect identity.** -/
theorem apply_same (hstub : stub.isBitwise) (hlen : us.length = stub.uses)
    (hus : List.Forall₂ Same us vs) (h : Heap) : stub.apply us h = stub.apply vs h := by
  match stub, us, vs, hus with
  | .bit op, _, _, .cons ha (.cons hb .nil) =>
    simp only [apply, HeapM.look_run, Heap.bitOp, Heap.toInt32_same ha, Heap.toInt32_same hb]
  | .bitNot, _, _, .cons ha .nil =>
    simp only [apply, HeapM.look_run, Heap.bitNot, Heap.toInt32_same ha]

/-- The bitwise operators leave the heap as it is. -/
theorem heap_of_apply {r : Value} (hstub : stub.isBitwise) (hlen : us.length = stub.uses)
    (hrun : stub.apply us h = .ok r h') : h' = h := by
  have hlook : ∀ f : Heap → Except OpError Value, HeapM.look f h = .ok r h' → h' = h := by
    intro f hf
    rw [HeapM.look_run] at hf
    split at hf <;> cases hf
    rfl
  match stub, us with
  | .bit _, [_, _] => exact hlook _ hrun
  | .bitNot, [_] => exact hlook _ hrun

end Stub

end FastPath
