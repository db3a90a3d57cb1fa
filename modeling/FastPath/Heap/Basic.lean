import FastPath.Heap.Object
import FastPath.Interner
import FastPath.Bytecode.Function

/-!
# The heap

Interned strings, objects, shapes, and the indexed properties of the array prototype.
Adding an indexed property to the prototype bumps an epoch, so that code which assumed
"holes read as undefined" can notice.

Operations that only look are functions of the heap. Operations that change it are
actions of `HeapM`: a failed action leaves the changes it made before it failed, and those
are only ever newly interned strings.
-/

namespace FastPath

/-- The heap. -/
structure Heap where
  strings : Interner String
  objects : Array Object
  shapes : Shapes
  /-- Indexed properties of the array prototype. -/
  protoElements : Std.HashMap Nat Cell
  /-- Counts the changes of the array prototype. -/
  protoEpoch : Nat
deriving Inhabited

/-- An action on the heap that may fail. -/
abbrev HeapM := EStateM OpError Heap

instance : MonadLift (Except OpError) HeapM where
  monadLift
    | .ok a => pure a
    | .error e => throw e

/-- The handle of the text `length`. -/
def StrId.length : StrId := ⟨6⟩

/-- The handle of a type name's text. -/
def TypeName.strId : TypeName → StrId
  | undefined => ⟨0⟩
  | object => ⟨1⟩
  | boolean => ⟨2⟩
  | number => ⟨3⟩
  | string => ⟨4⟩
  | function => ⟨5⟩

namespace Heap

/-! ### Strings -/

/-- Intern a text. -/
def intern (h : Heap) (s : String) : StrId × Heap :=
  let (i, strings) := h.strings.intern s
  (⟨UInt32.ofNat i⟩, { h with strings })

/-- Intern several texts in order. -/
def internAll (h : Heap) : List String → List StrId × Heap
  | [] => ([], h)
  | s :: ss =>
    let (i, h) := h.intern s
    let (is, h) := h.internAll ss
    (i :: is, h)

/-- The handle of a text that is already interned. -/
def findString? (h : Heap) (s : String) : Option StrId :=
  (h.strings.find? s).map fun i => ⟨UInt32.ofNat i⟩

/-- The text of a handle. -/
def string (h : Heap) (s : StrId) : Except OpError String :=
  match h.strings.get? s.index.toNat with
  | some text => .ok text
  | none => .error (.invalidString s.index.toNat)

/-- The empty heap, with the type names and `length` interned. -/
def new : Heap :=
  let h : Heap := ⟨Interner.empty, #[], Shapes.new, ∅, 0⟩
  (h.internAll (TypeName.all.map TypeName.text ++ ["length"])).2

/-- Intern every string constant of a function. Compiled code holds string handles, so
this comes before compilation. -/
def linkFunction (h : Heap) (f : Bytecode.Function) : Heap :=
  (h.internAll (f.constants.items.toList.filterMap Bytecode.Constant.string?)).2

/-! ### Objects -/

/-- The object of a handle. -/
def object (h : Heap) (o : ObjId) : Except OpError Object :=
  match h.objects[o.index.toNat]? with
  | some object => .ok object
  | none => .error (.invalidObject o.index.toNat)

/-- The object handle a payload word is, if it fits one. -/
def handle (payload : UInt64) : Except OpError ObjId :=
  if payload.toNat < UInt32.size then .ok ⟨payload.toUInt32⟩
  else .error (.invalidObject payload.toNat)

/-- The object a payload word refers to. -/
def objectAt (h : Heap) (payload : UInt64) : Except OpError Object := do
  h.object (← handle payload)

/-- Replace the object of a live handle. -/
def setObject (h : Heap) (o : ObjId) (object : Object) : Heap :=
  { h with objects := h.objects.setIfInBounds o.index.toNat object }

/-- Change an object by a function that may refuse. -/
def updateObject (h : Heap) (o : ObjId) (f : Object → Except OpError Object) :
    Except OpError Heap := do
  let object ← h.object o
  let object ← f object
  return h.setObject o object

/-- Add an object. -/
def alloc (h : Heap) (object : Object) : ObjId × Heap :=
  (⟨UInt32.ofNat h.objects.size⟩, { h with objects := h.objects.push object })

/-- A new ordinary object without properties. -/
def newPlain (h : Heap) : ObjId × Heap := h.alloc (Object.plain Shapes.root 0)

/-- A new ordinary object with the given properties, all `undefined`. -/
def newKeyed (h : Heap) (keys : List StrId) : ObjId × Heap :=
  let (shape, shapes) := h.shapes.shapeFor keys
  { h with shapes }.alloc (Object.plain shape (shapes.slotCount shape))

/-- A new array literal under construction. -/
def newArrayLiteral (h : Heap) (count : Nat) : Except OpError (ObjId × Heap) :=
  if maxDenseCapacity < count then .error (.literalTooLarge count)
  else .ok (h.alloc (Object.arrayLiteral count))

/-- A new array. -/
def newArray (h : Heap) (values : Array Value) (capacity : Nat) : ObjId × Heap :=
  h.alloc (Object.array values capacity)

/-- A new typed array of zeros. -/
def newTypedArray (h : Heap) (cls : ObjectClass) (length : Nat) :
    Except OpError (ObjId × Heap) :=
  match cls with
  | .int32Array => .ok (h.alloc (Object.typedArray cls (.int32 0) length))
  | .float64Array => .ok (h.alloc (Object.typedArray cls (.double .zero) length))
  | _ => .error (.notTypedArrayClass cls)

/-- Grow the element storage of an object. -/
def ensureCapacity (h : Heap) (o : ObjId) (capacity : Nat) : Except OpError Heap :=
  if maxDenseCapacity < capacity then .error (.denseLimit capacity)
  else h.updateObject o (·.grow capacity)

/-! ### Named properties -/

/-- The slot of an own named property. -/
def slotOf? (h : Heap) (object : Object) (key : StrId) : Option Nat :=
  h.shapes.lookup? object.shape key

/-- The own named property of an object. -/
def getNamed (h : Heap) (o : ObjId) (key : StrId) : Except OpError (Option Cell) := do
  let object ← h.object o
  return (h.slotOf? object key).bind (object.slots[·]?)

/-- Write an own named property, adding it if it is new. -/
def defineNamed (h : Heap) (o : ObjId) (key : StrId) (v : Value) : Except OpError Heap := do
  let object ← h.object o
  match h.slotOf? object key with
  | some slot =>
    return h.setObject o { object with slots := object.slots.setIfInBounds slot v.toCell }
  | none =>
    let (shape, shapes) := h.shapes.transition object.shape key
    return { h with shapes }.setObject o
      { object with shape, slots := object.slots.push v.toCell }

/-! ### The array prototype -/

/-- The array prototype has indexed properties, so holes may read as something. -/
def protoHasIndexed (h : Heap) : Bool := !h.protoElements.isEmpty

/-- An indexed property of the array prototype. -/
def protoElement? (h : Heap) (i : Nat) : Option Cell := h.protoElements[i]?

/-- Add an indexed property to the array prototype. -/
def setProtoElement (h : Heap) (i : Nat) (v : Value) : Heap :=
  { h with
    protoElements := h.protoElements.insert i v.toCell
    protoEpoch := h.protoEpoch + 1 }

/-- The cell an array read at `i` sees: the own element, or else the prototype's. -/
def arrayElement? (h : Heap) (object : Object) (i : Nat) : Option Cell :=
  (object.element? i).or (h.protoElement? i)

end Heap

namespace HeapM

/-- Intern a text. -/
def intern (s : String) : HeapM StrId := modifyGet fun h => h.intern s

/-- Run a function that looks at the heap. -/
def look {α : Type} (f : Heap → Except OpError α) : HeapM α := do
  let h ← get
  f h

/-- Run a function that replaces the heap, unless it fails. -/
def update (f : Heap → Except OpError Heap) : HeapM Unit := fun h =>
  match f h with
  | .ok h' => .ok () h'
  | .error e => .error e h

end HeapM

end FastPath
