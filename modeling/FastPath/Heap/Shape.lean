import Std.Data.HashMap
import FastPath.Value

/-!
# Shapes

A shape says which properties an object has, and in which slots. Shapes form a tree: the root
has no properties, and an edge leads from a shape to the one with a property more. Objects that
gained the same properties in the same order meet in one shape, so a shape id alone proves a
layout.

Nothing compares the names of two shapes. The fields `edge` and `tree` only say that edges lead
to the right layouts and that every shape has an edge to it; that no two shapes have the same
names follows.
-/

namespace FastPath

/-- Number of a shape, its position in the table. -/
abbrev ShapeId := Nat

/-- The last position of `k` among the first `n` entries. -/
def lastIndex? (xs : Array StrId) (k : StrId) : (n : Nat) → Option Nat
  | 0 => none
  | n + 1 => if xs[n]? = some k then some n else lastIndex? xs k n

theorem lastIndex?_push (names : Array StrId) (k n : StrId) :
    lastIndex? (names.push k) n (names.push k).size =
      if k = n then some names.size else lastIndex? names n names.size := by
  have hold : ∀ size ≤ names.size, lastIndex? (names.push k) n size = lastIndex? names n size := by
    intro size hsize
    induction size with
    | zero => rfl
    | succ size ih =>
      rw [lastIndex?, lastIndex?, ih (Nat.le_of_succ_le hsize), Array.getElem?_push,
        if_neg (Nat.ne_of_lt hsize)]
  rw [Array.size_push, lastIndex?, hold _ (Nat.le_refl _), Array.getElem?_push_size]
  simp

/-- The properties of the objects of a shape. -/
structure Layout where
  /-- The names in slot order. -/
  keys : Array StrId
  /-- The slot of each name. -/
  slots : Std.HashMap StrId Nat
  /-- A repeated name has its last slot. -/
  slots_eq : ∀ k, slots[k]? = lastIndex? keys k keys.size

namespace Layout

/-- No properties. -/
def empty : Layout where
  keys := #[]
  slots := ∅
  slots_eq := by simp [lastIndex?]

/-- One property more, in the next slot. -/
def push (l : Layout) (k : StrId) : Layout where
  keys := l.keys.push k
  slots := l.slots.insert k l.keys.size
  slots_eq n := by
    rw [Std.HashMap.getElem?_insert, lastIndex?_push, l.slots_eq]
    simp only [beq_iff_eq]

end Layout

/-- The names of shape `s`. -/
def namesAt (layouts : Array Layout) (s : ShapeId) : Option (Array StrId) :=
  layouts[s]?.map Layout.keys

theorem namesAt_push (layouts : Array Layout) (l : Layout) (s : ShapeId) :
    namesAt (layouts.push l) s =
      if s = layouts.size then some l.keys else namesAt layouts s := by
  rw [namesAt, Array.getElem?_push]
  split <;> rfl

theorem namesAt_push_of_some {layouts : Array Layout} {s : ShapeId} {names : Array StrId}
    (h : namesAt layouts s = some names) (l : Layout) :
    namesAt (layouts.push l) s = some names := by
  obtain ⟨_, hl, -⟩ := Option.map_eq_some_iff.1 h
  rw [namesAt_push, if_neg (Nat.ne_of_lt (Array.getElem?_eq_some_iff.1 hl).1), h]

/-- The shapes seen so far. -/
structure Shapes where
  /-- The shapes in order of their numbers. -/
  layouts : Array Layout
  /-- Where a property leads from a shape. -/
  next : Std.HashMap (ShapeId × StrId) ShapeId
  root_eq : namesAt layouts 0 = some #[]
  /-- An edge adds a name. -/
  edge : ∀ (s : ShapeId) (k : StrId) (s' : ShapeId), next[(s, k)]? = some s' →
    ∃ names, namesAt layouts s = some names ∧ namesAt layouts s' = some (names.push k)
  /-- An edge leads to every shape but the root. -/
  tree : ∀ s < layouts.size, s = 0 ∨ ∃ (p : ShapeId) (k : StrId), next[(p, k)]? = some s

namespace Shapes

/-- The shape without properties. -/
def root : ShapeId := 0

/-- The tree that is only a root. -/
def new : Shapes where
  layouts := #[.empty]
  next := ∅
  root_eq := rfl
  edge := by simp
  tree s hs := .inl (Nat.lt_one_iff.1 hs)

instance : Inhabited Shapes := ⟨new⟩

/-- Number of shapes. -/
def size (t : Shapes) : Nat := t.layouts.size

/-- The property names of shape `s`, if it is there. -/
def get? (t : Shapes) (s : ShapeId) : Option (Array StrId) := namesAt t.layouts s

/-- The property names of a shape in slot order. -/
def keys (t : Shapes) (s : ShapeId) : Array StrId := (t.get? s).getD #[]

/-- Slots of an object of the shape. -/
def slotCount (t : Shapes) (s : ShapeId) : Nat := (t.keys s).size

/-- The slot of a property. -/
def lookup? (t : Shapes) (s : ShapeId) (k : StrId) : Option Nat :=
  t.layouts[s]?.bind (·.slots[k]?)

/-- Add the shape that has a property more than `s`. -/
def push (t : Shapes) (s : ShapeId) (k : StrId) (l : Layout) (hl : t.layouts[s]? = some l)
    (hnew : t.next[(s, k)]? = none) : Shapes where
  layouts := t.layouts.push (l.push k)
  next := t.next.insert (s, k) t.layouts.size
  root_eq := namesAt_push_of_some t.root_eq _
  edge a j b hb := by
    rw [Std.HashMap.getElem?_insert] at hb
    split at hb
    · next heq =>
      cases eq_of_beq heq
      cases hb
      refine ⟨l.keys, namesAt_push_of_some (congrArg (Option.map _) hl) _, ?_⟩
      rw [namesAt_push, if_pos rfl]
      rfl
    · obtain ⟨names, ha, hb⟩ := t.edge a j b hb
      exact ⟨names, namesAt_push_of_some ha _, namesAt_push_of_some hb _⟩
  tree a ha := by
    rw [Array.size_push] at ha
    rcases Nat.lt_succ_iff_lt_or_eq.1 ha with ha | rfl
    · rcases t.tree a ha with hroot | ⟨p, j, hp⟩
      · exact .inl hroot
      · refine .inr ⟨p, j, ?_⟩
        rw [Std.HashMap.getElem?_insert, if_neg, hp]
        intro heq
        cases eq_of_beq heq
        cases hnew.symm.trans hp
    · exact .inr ⟨s, k, Std.HashMap.getElem?_insert_self⟩

/-- The shape with one more property; a number that names no shape leads nowhere. -/
def transition (t : Shapes) (s : ShapeId) (k : StrId) : ShapeId × Shapes :=
  match hnew : t.next[(s, k)]? with
  | some s' => (s', t)
  | none =>
    match hl : t.layouts[s]? with
    | some l => (t.size, t.push s k l hl hnew)
    | none => (s, t)

/-- The shape that adds `ks` in order to `s`. -/
def extend (t : Shapes) (s : ShapeId) : List StrId → ShapeId × Shapes
  | [] => (s, t)
  | k :: ks =>
    let (s', t') := transition t s k
    extend t' s' ks

/-- The shape that has the properties `ks` in order. -/
def shapeFor (t : Shapes) (ks : List StrId) : ShapeId × Shapes := extend t root ks

end Shapes

end FastPath
