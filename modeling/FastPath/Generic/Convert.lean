import FastPath.Heap.Basic
import FastPath.Text.Unit16

/-!
# Conversions

The conversions every generic operation is made of: to booleans, numbers, 32-bit
integers, text, primitives and property keys. They look at the heap only through string
handles and the contents of arrays; the two that may intern a new string are actions.
-/

namespace FastPath

namespace Heap

/-- Truthiness. -/
def toBoolean (h : Heap) : Value → Except OpError Bool
  | .undefined | .null => .ok false
  | .boolean b => .ok b
  | .int32 i => .ok (i != 0)
  | .double d => .ok (!d.isZero && !d.isNaN)
  | .string s => (h.string s).map fun text => !text.isEmpty
  | .object _ => .ok true

/-- The text of a value, with arrays joined by commas down to `depth` levels; arrays
nested deeper are empty text, which is also how a cyclic array ends. Absent, `undefined`
and `null` elements are empty text. -/
def textTo (h : Heap) : (depth : Nat) → Value → Except OpError String
  | _, .undefined => .ok "undefined"
  | _, .null => .ok "null"
  | _, .boolean b => .ok (if b then "true" else "false")
  | _, .int32 i => .ok (Numeral.ofInt i.toInt)
  | _, .double d => .ok (Numeral.write d)
  | _, .string s => h.string s
  | 0, .object o => do
    let object ← h.object o
    return if object.cls = .plain then "[object Object]" else ""
  | depth + 1, .object o => do
    let object ← h.object o
    if object.cls = .plain then return "[object Object]"
    let parts ← (List.range object.length).mapM fun i =>
      match ((h.arrayElement? object i).getD .undefined).decode with
      | .error e => .error e
      | .ok .undefined | .ok .null => .ok ""
      | .ok v => textTo h depth v
    return ",".intercalate parts

/-- Levels of nested arrays that have text. -/
def textDepth : Nat := 17

/-- The text of a value. -/
def toText (h : Heap) (v : Value) : Except OpError String := h.textTo textDepth v

/-- The number a value converts to. -/
def toNumber (h : Heap) : Value → Except OpError Double
  | .undefined => .ok Double.nan
  | .null => .ok Double.zero
  | .boolean b => .ok (Double.ofInt32 (if b then 1 else 0))
  | .int32 i => .ok (Double.ofInt32 i)
  | .double d => .ok d
  | .string s => (h.string s).map Numeral.read
  | .object o => (h.toText (.object o)).map Numeral.read

/-- The 32-bit integer a value converts to. -/
def toInt32 (h : Heap) : Value → Except OpError Int32
  | .int32 i => .ok i
  | v => (h.toNumber v).map Double.toInt32

end Heap

/-- The handle of the type name of a value. -/
def Value.typeOf (v : Value) : StrId := v.typeName.strId

/-- The primitive a value converts to: objects become their text. -/
def toPrimitive : Value → HeapM Value
  | .object o => do
    let text ← HeapM.look (·.toText (.object o))
    return .string (← HeapM.intern text)
  | v => return v

/-! ### Property keys -/

/-- A property key: an array index or a name. -/
inductive PropertyKey where
  | index (i : Nat)
  | name (s : StrId)
deriving DecidableEq, Repr, Inhabited

/-- The array index a number is, if it is one. -/
def Double.arrayIndex? (d : Double) : Option Nat :=
  if d.isIntegral && 0 ≤ d.truncate && d.truncate < 0xffffffff then some d.truncate.toNat
  else none

/-- The name of a key that is no array index by itself: its interned text. -/
def nameKey (key : Value) : HeapM PropertyKey := do
  let text ← HeapM.look (·.toText key)
  return .name (← HeapM.intern text)

/-- The property key a value converts to. -/
def toPropertyKey : Value → HeapM PropertyKey
  | .int32 i => if 0 ≤ i.toInt then return .index i.toInt.toNat else nameKey (.int32 i)
  | .double d =>
    match d.arrayIndex? with
    | some i => return .index i
    | none => nameKey (.double d)
  | .string s => do
    let text ← HeapM.look (·.string s)
    match Numeral.index? text with
    | some i => return .index i
    | none => return .name s
  | v => nameKey v

end FastPath
