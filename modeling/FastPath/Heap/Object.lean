import FastPath.Heap.Shape

/-!
# Objects

An object has named slots, laid out by its shape, and element storage. Of an array's
storage only the first `initializedLength` cells count; holes are allowed among them, and
`length` is the visible length. A typed array keeps its elements in the same storage,
all of them initialized.
-/

namespace FastPath

/-- A heap object. -/
structure Object where
  cls : ObjectClass
  shape : ShapeId
  /-- Named properties, in the order of the shape. -/
  slots : Array Cell
  /-- Element storage; its size is the capacity. -/
  elements : Array Cell
  initializedLength : Nat
  length : Nat
deriving DecidableEq, Repr, Inhabited

/-- The largest capacity that element writes may grow an array to. -/
def maxDenseCapacity : Nat := 0x1000000

namespace Object

/-- An ordinary object with the given number of slots, all `undefined`. -/
def plain (shape : ShapeId) (slotCount : Nat) : Object where
  cls := .plain
  shape := shape
  slots := Array.replicate slotCount .undefined
  elements := #[]
  initializedLength := 0
  length := 0

/-- An array literal under construction: it has its length but no initialized element. -/
def arrayLiteral (count : Nat) : Object where
  cls := .array
  shape := Shapes.root
  slots := #[]
  elements := Array.replicate count .hole
  initializedLength := 0
  length := count

/-- An array of the given values with room for at least `capacity` elements. -/
def array (values : Array Value) (capacity : Nat) : Object where
  cls := .array
  shape := Shapes.root
  slots := #[]
  elements := values.map Value.toCell ++ Array.replicate (capacity - values.size) .hole
  initializedLength := values.size
  length := values.size

/-- A typed array of `length` copies of `zero`. -/
def typedArray (cls : ObjectClass) (zero : Value) (length : Nat) : Object where
  cls := cls
  shape := Shapes.root
  slots := #[]
  elements := Array.replicate length zero.toCell
  initializedLength := length
  length := length

/-- Number of allocated element cells. -/
def capacity (o : Object) : Nat := o.elements.size

/-- Read an extent. -/
def extent (o : Object) : Extent → Nat
  | .initializedLength => o.initializedLength
  | .capacity => o.capacity
  | .length => o.length

/-- Write an extent. The capacity cannot be written, and the initialized length stays
within it. -/
def setExtent (o : Object) (e : Extent) (n : Nat) : Except OpError Object :=
  match e with
  | .initializedLength =>
    if n ≤ o.capacity then .ok { o with initializedLength := n }
    else .error (.refusedExtent e n o.capacity)
  | .length => .ok { o with length := n }
  | .capacity => .error (.refusedExtent e n o.capacity)

/-- No hole among the initialized elements. -/
def isPacked (o : Object) : Bool :=
  (o.elements.toList.take o.initializedLength).all fun c => !c.isHole

/-- The initialized element at `i` that is not a hole. -/
def element? (o : Object) (i : Nat) : Option Cell :=
  if i < o.initializedLength then o.elements[i]?.filter fun c => !c.isHole else none

/-- Grow the storage to at least `capacity` cells, at least doubling it. -/
def grow (o : Object) (capacity : Nat) : Except OpError Object :=
  if maxDenseCapacity < capacity then .error (.denseLimit capacity)
  else if o.capacity < capacity then
    let grown := min (max (max capacity (2 * o.capacity)) 8) maxDenseCapacity
    .ok { o with elements := o.elements ++ Array.replicate (grown - o.capacity) .hole }
  else .ok o

/-- Write element `i` of an array, growing its storage if needed. Elements that are
skipped over stay holes, and the lengths cover the new element. -/
def setElement (o : Object) (i : Nat) (c : Cell) : Except OpError Object :=
  let grown := if o.capacity ≤ i then o.grow (i + 1) else .ok o
  grown.map fun o =>
    { o with
      elements := o.elements.setIfInBounds i c
      initializedLength := max o.initializedLength (i + 1)
      length := max o.length (i + 1) }

/-- Set the visible length of an array; elements past it become holes. -/
def setLength (o : Object) (n : Nat) : Object :=
  if n < o.initializedLength then
    { o with
      elements := o.elements.mapIdx fun i c =>
        if n ≤ i ∧ i < o.initializedLength then .hole else c
      initializedLength := n
      length := n }
  else { o with length := n }

/-- Write element `i` of a typed array; positions past the end are ignored. -/
def setTyped (o : Object) (i : Nat) (v : Value) : Object :=
  { o with elements := o.elements.setIfInBounds i v.toCell }

end Object

end FastPath
