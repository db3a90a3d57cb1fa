import FastPath.Generic.Element

/-!
# Inline caches

An element access whose container is not known to be an array goes through an inline
cache. Its inline path serves arrays. When that path's class guard trips, the cases the
cache has learned are tried in order: elements of typed arrays of one class, and named
slots of objects of one shape. A cache learns a case after the generic access has run. When
it would learn more than its limit it becomes megamorphic: it forgets its cases, and every
access takes the generic path from then on.
-/

namespace FastPath

/-- A case that a cache has learned. -/
inductive CacheCase where
  /-- An element in bounds of a typed array of the class. -/
  | typedArray (cls : ObjectClass)
  /-- The property `key` of objects of one shape, found in a slot. -/
  | namedSlot (shape : ShapeId) (key : StrId) (slot : Nat)
deriving DecidableEq, Repr, Inhabited

/-! ### Learning -/

/-- What happened when a cache was offered a case. -/
inductive LearnOutcome where
  | attached
  | alreadyAttached
  | wentMegamorphic
  /-- The cache was megamorphic already. -/
  | megamorphic
deriving DecidableEq, Repr, Inhabited

/-- The stages of a cache. -/
inductive CacheStage where
  /-- Only the inline path. -/
  | speculative
  /-- The inline path and some cases. -/
  | polymorphic
  /-- Only the generic path. -/
  | megamorphic
deriving DecidableEq, Repr, Inhabited

/-- What a cache has learned. -/
structure CacheState where
  /-- The cases, tried in order. -/
  cases : List CacheCase
  megamorphic : Bool
  /-- Counts the changes. -/
  version : Nat
deriving DecidableEq, Repr, Inhabited

namespace CacheState

/-- A cache that has learned nothing. -/
def fresh : CacheState := ⟨[], false, 0⟩

/-- The stage of a cache. -/
def stage (s : CacheState) : CacheStage :=
  if s.megamorphic then .megamorphic
  else if s.cases.isEmpty then .speculative
  else .polymorphic

/-- Learn a case, within a limit. -/
def learn (s : CacheState) (c : CacheCase) (limit : Nat) : LearnOutcome × CacheState :=
  if s.megamorphic then (.megamorphic, s)
  else if s.cases.contains c then (.alreadyAttached, s)
  else if limit ≤ s.cases.length then (.wentMegamorphic, ⟨[], true, s.version + 1⟩)
  else (.attached, { s with cases := s.cases ++ [c], version := s.version + 1 })

end CacheState

/-- The case that covers this access, if there is one. Only properties that exist are
covered, since adding one changes the shape. -/
def chooseCase (base key : Value) : HeapM (Option CacheCase) :=
  match base with
  | .object o => do
    let object ← HeapM.look (·.object o)
    match object.cls, key with
    | .plain, key =>
      match ← toPropertyKey key with
      | .index _ => return none
      | .name n =>
        return ((← get).slotOf? object n).map fun slot => .namedSlot object.shape n slot
    | .array, _ => return none
    | cls, .int32 i => return if 0 ≤ i.toInt then some (.typedArray cls) else none
    | _, _ => return none
  | _ => return none

/-! ### Probing -/

namespace CacheCase

/-- Where the case finds the access in the object: an element or a slot. -/
def position? (c : CacheCase) (object : Object) (key : Value) : Option Nat :=
  match c, key with
  | typedArray cls, .int32 i =>
    if object.cls = cls ∧ 0 ≤ i.toInt ∧ i.toInt < object.length then some i.toInt.toNat else none
  | namedSlot shape name slot, .string s =>
    if object.shape = shape ∧ s = name then some slot else none
  | _, _ => none

/-- The cells that the positions of the case refer to. -/
def cells (c : CacheCase) (object : Object) : Array Cell :=
  match c with
  | typedArray _ => object.elements
  | namedSlot _ _ _ => object.slots

/-- The object with the cell at a position replaced. -/
def store (c : CacheCase) (object : Object) (i : Nat) (cell : Cell) : Object :=
  match c with
  | typedArray _ => { object with elements := object.elements.setIfInBounds i cell }
  | namedSlot _ _ _ => { object with slots := object.slots.setIfInBounds i cell }

/-- A value as the case stores it. -/
def convert (c : CacheCase) (h : Heap) (v : Value) : Except OpError Value :=
  match c with
  | typedArray .int32Array => (h.toInt32 v).map .int32
  | typedArray _ => (h.toNumber v).map .double
  | namedSlot _ _ _ => .ok v

end CacheCase

/-- Read through the first case that covers the access. -/
def Heap.probeGet (h : Heap) (cases : List CacheCase) (o : ObjId) (key : Value) :
    Except OpError (Option Cell) :=
  if cases.isEmpty then .ok none
  else do
    let object ← h.object o
    return (cases.findSome? fun c => (c.position? object key).map fun i => (c, i)).bind
      fun (c, i) => (c.cells object)[i]?

/-- Write through the first case that covers the access; `none` if no case does. -/
def Heap.probeSet (h : Heap) (o : ObjId) (key v : Value) :
    List CacheCase → Except OpError (Option Heap)
  | [] => .ok none
  | c :: cs => do
    let object ← h.object o
    match c.position? object key with
    | none => h.probeSet o key v cs
    | some i =>
      let stored ← c.convert h v
      if i < (c.cells object).size then
        return some (h.setObject o (c.store object i stored.toCell))
      else h.probeSet o key v cs

end FastPath
