import FastPath.Generic.Convert

/-!
# Elements

Reading and writing `base[key]` on any values, and the initializers of literals.

An array keeps its indices in dense storage and has a `length`; a typed array has a fixed
number of elements of one type; every other property, indices of ordinary objects
included, is a named one.
-/

namespace FastPath

/-- The key of an element access; `null` and `undefined` have no elements. -/
def elementKey (base key : Value) : HeapM PropertyKey :=
  if base.isNullish then throw (.nullishElement (base = .null)) else toPropertyKey key

/-- The value of a cell, or `undefined` if there is none. -/
def valueOf? : Option Cell → Except OpError Value
  | some c => c.decode
  | none => .ok .undefined

/-- The name of an index. -/
def indexName (i : Nat) : HeapM StrId := HeapM.intern (Numeral.ofNat i)

/-- The own named property of an object, or `undefined`. -/
def getNamedValue (o : ObjId) (name : StrId) : HeapM Value :=
  HeapM.look fun h => do valueOf? (← h.getNamed o name)

/-- An element of a string: one code unit, or its length. -/
def stringElement (s : StrId) (key : PropertyKey) : HeapM Value := do
  let text ← HeapM.look (·.string s)
  match key with
  | .index i =>
    match (Text.units text)[i]? with
    | some u => return .string (← HeapM.intern (Text.unitText u))
    | none => return .undefined
  | .name n =>
    if n = StrId.length then return .number (Double.ofNat (Text.unitLength text))
    else return .undefined

/-- An element of an object. -/
def objectElement (o : ObjId) (key : PropertyKey) : HeapM Value := do
  let object ← HeapM.look (·.object o)
  match key with
  | .index i =>
    match object.cls with
    | .array => HeapM.look fun h => valueOf? (h.arrayElement? object i)
    | .plain => getNamedValue o (← indexName i)
    | _ => valueOf? object.elements[i]?
  | .name n =>
    if object.cls ≠ .plain ∧ n = StrId.length then
      return .number (Double.ofNat object.length)
    else getNamedValue o n

/-- `base[key]`. Values that are neither strings nor objects have no elements. -/
def getElement (base key : Value) : HeapM Value := do
  let key ← elementKey base key
  match base with
  | .object o => objectElement o key
  | .string s => stringElement s key
  | _ => return .undefined

/-- Assign the `length` of an array: the number must be an unsigned 32-bit integer. -/
def setArrayLength (o : ObjId) (v : Value) : HeapM Unit := do
  let n ← HeapM.look (·.toNumber v)
  let length := n.toUInt32.toNat
  if (Double.ofNat length).eq n then
    HeapM.update (·.updateObject o fun object => .ok (object.setLength length))
  else throw .invalidArrayLength

/-- Write a named property of an object. -/
def setNamed (o : ObjId) (name : StrId) (v : Value) : HeapM Unit :=
  HeapM.update (·.defineNamed o name v)

/-- Write an element of an object. -/
def setObjectElement (o : ObjId) (key : PropertyKey) (v : Value) : HeapM Unit := do
  let object ← HeapM.look (·.object o)
  match object.cls, key with
  | .array, .index i => HeapM.update (·.updateObject o (·.setElement i v.toCell))
  | .array, .name n => if n = StrId.length then setArrayLength o v else setNamed o n v
  | .int32Array, .index i => do
    let n ← HeapM.look (·.toInt32 v)
    HeapM.update (·.updateObject o fun object => .ok (object.setTyped i (.int32 n)))
  | .float64Array, .index i => do
    let n ← HeapM.look (·.toNumber v)
    HeapM.update (·.updateObject o fun object => .ok (object.setTyped i (.double n)))
  | _, .name n => setNamed o n v
  | .plain, .index i => do setNamed o (← indexName i) v

/-- `base[key] = v`. Writes to values that are no objects are dropped. -/
def setElement (base key v : Value) : HeapM Unit := do
  let key ← elementKey base key
  match base with
  | .object o => setObjectElement o key v
  | _ => return

/-- Define a property of a literal under construction. -/
def initProperty (target : Value) (name : StrId) (v : Value) : HeapM Unit :=
  match target with
  | .object o => setNamed o name v
  | _ => throw .initializerTarget

/-- The length of an array covers index `i`. -/
def coverIndex (o : ObjId) (i : Nat) : HeapM Unit :=
  HeapM.update (·.updateObject o fun object =>
    .ok (if object.cls = .array ∧ object.length ≤ i then { object with length := i + 1 }
      else object))

/-- Define an element of a literal under construction. After the last one the visible
length covers it. -/
def initElement (target key v : Value) (isLast : Bool) : HeapM Unit :=
  match target with
  | .object o => do
    setElement target key v
    if isLast then
      match ← toPropertyKey key with
      | .index i => coverIndex o i
      | .name _ => return
  | _ => throw .initializerTarget

end FastPath
