import Std.Data.HashMap

/-!
# Interning tables

An `Interner` gives every item it has seen a number, in order of first appearance, and
never gives two numbers to one item. The strings of a heap are kept in such a table: their
handles are the numbers.

The table is a list of items together with a hash index. The field `index_iff` says that
the index is exactly the inverse of the list, so items are pairwise distinct and nothing
else has to be assumed of a table.
-/

namespace FastPath

/-- A table of pairwise distinct items, numbered in order of first appearance. -/
structure Interner (α : Type) [BEq α] [Hashable α] where
  /-- The items in order of their numbers. -/
  items : Array α
  /-- The number of each item. -/
  index : Std.HashMap α Nat
  /-- The index is the inverse of the list of items. -/
  index_iff : ∀ (a : α) (i : Nat), index[a]? = some i ↔ items[i]? = some a

namespace Interner

variable {α : Type} [BEq α] [Hashable α]

/-- The table without items. -/
def empty : Interner α where
  items := #[]
  index := ∅
  index_iff := by simp

instance : Inhabited (Interner α) := ⟨empty⟩

/-- Number of items in the table. -/
def size (t : Interner α) : Nat := t.items.size

/-- The item with number `i`. -/
def get? (t : Interner α) (i : Nat) : Option α := t.items[i]?

/-- The number of an item already in the table. -/
def find? (t : Interner α) (a : α) : Option Nat := t.index[a]?

theorem find?_eq_some_iff {t : Interner α} {a : α} {i : Nat} :
    t.find? a = some i ↔ t.get? i = some a :=
  t.index_iff a i

theorem get?_injective {t : Interner α} {a : α} {i j : Nat} (hi : t.get? i = some a)
    (hj : t.get? j = some a) : i = j :=
  Option.some.inj ((find?_eq_some_iff.2 hi).symm.trans (find?_eq_some_iff.2 hj))

theorem get?_lt {t : Interner α} {a : α} {i : Nat} (h : t.get? i = some a) : i < t.size :=
  (Array.getElem?_eq_some_iff.1 h).1

variable [LawfulBEq α]

/-- Append an item that is not in the table yet. -/
def push (t : Interner α) (a : α) (h : t.find? a = none) : Interner α where
  items := t.items.push a
  index := t.index.insert a t.items.size
  index_iff := by
    intro b i
    rw [Std.HashMap.getElem?_insert, Array.getElem?_push]
    have hb := t.index_iff b i
    by_cases hab : a = b
    · subst hab
      have ha : ∀ j, t.items[j]? ≠ some a := fun j hj => by
        have := (t.index_iff a j).2 hj
        simp [find?] at h
        simp_all
      by_cases hi : i = t.items.size
      · simp [hi]
      · simp only [beq_self_eq_true, ↓reduceIte, Option.some.injEq, hi]
        exact ⟨fun e => absurd e.symm hi, fun e => absurd e (ha i)⟩
    · simp only [beq_iff_eq, hab, ↓reduceIte, hb]
      by_cases hi : i = t.items.size
      · simp [hi, hab]
      · simp [hi]

/-- The number of `a`, entering it at the end of the table if it is new. -/
def intern (t : Interner α) (a : α) : Nat × Interner α :=
  match h : t.find? a with
  | some i => (i, t)
  | none => (t.size, t.push a h)

theorem intern_of_find? {t : Interner α} {a : α} {i : Nat} (h : t.find? a = some i) :
    t.intern a = (i, t) := by
  unfold intern
  split <;> simp_all

theorem get?_intern_self (t : Interner α) (a : α) :
    (t.intern a).2.get? (t.intern a).1 = some a := by
  unfold intern
  split
  · next i h => exact find?_eq_some_iff.1 h
  · next h => simp [push, get?, size]

theorem get?_intern_of_some {t : Interner α} (a : α) {b : α} {i : Nat}
    (h : t.get? i = some b) : (t.intern a).2.get? i = some b := by
  unfold intern
  split
  · exact h
  · have hi := get?_lt h
    simp only [push, get?, size] at *
    rw [Array.getElem?_push, if_neg (Nat.ne_of_lt hi)]
    exact h

theorem find?_intern_self (t : Interner α) (a : α) :
    (t.intern a).2.find? a = some (t.intern a).1 :=
  find?_eq_some_iff.2 (get?_intern_self t a)

end Interner

end FastPath
