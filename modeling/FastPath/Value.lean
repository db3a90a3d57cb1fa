import FastPath.OpError

/-!
# Values

A value is stored as a `Cell`: a tag word and a payload word. Compiled code tests tag
words directly, and the numbering makes the common categories single comparisons: a
number has a tag of at most `Tag.int32`.

Not every cell is a value. The tag `hole` marks an absent array element, and other tag
words mean nothing; `Cell.decode` refuses both.
-/

namespace FastPath

/-- Handle of an interned string. -/
structure StrId where
  index : UInt32
deriving DecidableEq, Hashable, Repr, Inhabited

/-- Handle of a heap object. -/
structure ObjId where
  index : UInt32
deriving DecidableEq, Hashable, Repr, Inhabited

/-! ### Tags -/

/-- What the payload of a cell is. -/
inductive Tag where
  | double
  | int32
  | undefined
  | boolean
  /-- An absent array element. -/
  | hole
  | string
  | null
  | object
deriving DecidableEq, Hashable, Repr, Inhabited

namespace Tag

/-- Every tag, in the order of the tag words. -/
def all : List Tag := [double, int32, undefined, boolean, hole, string, null, object]

/-- The tag word. -/
def word : Tag → UInt64
  | double => 0
  | int32 => 1
  | undefined => 2
  | boolean => 3
  | hole => 4
  | string => 5
  | null => 6
  | object => 7

/-- The tag of a tag word. -/
def ofWord? (w : UInt64) : Option Tag := all.find? (·.word == w)

/-- The highest tag of a number. -/
def numberMax : Tag := int32

theorem ofWord?_word (t : Tag) : ofWord? t.word = some t := by cases t <;> rfl

end Tag

/-! ### Values -/

/-- A value of the language. -/
inductive Value where
  | undefined
  | null
  | boolean (b : Bool)
  | int32 (i : Int32)
  | double (d : Double)
  | string (s : StrId)
  | object (o : ObjId)
deriving DecidableEq, Hashable, Repr, Inhabited

/-- A value as stored: a tag word and a payload word. -/
structure Cell where
  tag : UInt64
  payload : UInt64
deriving DecidableEq, Hashable, Repr

namespace Value

/-- The tag of a value. -/
def tag : Value → Tag
  | undefined => .undefined
  | null => .null
  | boolean _ => .boolean
  | int32 _ => .int32
  | double _ => .double
  | string _ => .string
  | object _ => .object

/-- The payload word of a value. -/
def payload : Value → UInt64
  | undefined | null => 0
  | boolean b => if b then 1 else 0
  | int32 i => i.toUInt32.toUInt64
  | double d => d.bits
  | string s => s.index.toUInt64
  | object o => o.index.toUInt64

/-- The cell that stores a value. -/
def toCell (v : Value) : Cell := ⟨v.tag.word, v.payload⟩

/-- A number as a value: a 32-bit integer where it is exactly one, else a double. -/
def number (d : Double) : Value :=
  match d.exactInt32? with
  | some i => int32 i
  | none => double d

/-- An integer or a double. -/
def isNumber : Value → Bool
  | int32 _ | double _ => true
  | _ => false

/-- The numeric value of a number. -/
def double? : Value → Option Double
  | int32 i => some (Double.ofInt32 i)
  | double d => some d
  | _ => none

/-- The handle of an object. -/
def object? : Value → Option ObjId
  | object o => some o
  | _ => none

/-- `null` or `undefined`. -/
def isNullish : Value → Bool
  | undefined | null => true
  | _ => false

/-- Observable identity: numbers by value, with NaN equal to itself and the zeros told
apart; everything else by kind and handle. -/
def same (a b : Value) : Bool :=
  match a.double?, b.double? with
  | some x, some y => x.same y
  | none, none => a == b
  | _, _ => false

end Value

namespace Cell

/-- The absent array element. -/
def hole : Cell := ⟨Tag.hole.word, 0⟩

/-- The cell of `undefined`. -/
def undefined : Cell := ⟨Tag.undefined.word, 0⟩

instance : Inhabited Cell := ⟨undefined⟩

/-- An absent array element. -/
def isHole (c : Cell) : Bool := c.tag == Tag.hole.word

/-- The value a cell stores. Payload bits that do not belong to the value are ignored. -/
def decode (c : Cell) : Except OpError Value :=
  match Tag.ofWord? c.tag with
  | none => .error (.invalidTag c.tag.toNat)
  | some .double => .ok (.double ⟨c.payload⟩)
  | some .int32 => .ok (.int32 c.payload.toUInt32.toInt32)
  | some .undefined => .ok .undefined
  | some .boolean => .ok (.boolean (c.payload &&& 1 != 0))
  | some .hole => .error .unexpectedHole
  | some .string => .ok (.string ⟨c.payload.toUInt32⟩)
  | some .null => .ok .null
  | some .object => .ok (.object ⟨c.payload.toUInt32⟩)

/-- A stored value reads back. -/
theorem decode_toCell (v : Value) : v.toCell.decode = .ok v := by
  cases v with
  | boolean b => cases b <;> rfl
  | _ => simp [Value.toCell, Value.tag, Value.payload, decode, Tag.ofWord?_word]

end Cell

/-! ### Type names -/

/-- The answers of `typeof`. -/
inductive TypeName where
  | undefined
  | object
  | boolean
  | number
  | string
  | function
deriving DecidableEq, Repr, Inhabited

namespace TypeName

/-- Every type name, in the order in which their texts are interned. -/
def all : List TypeName := [undefined, object, boolean, number, string, function]

/-- The text of a type name. -/
def text : TypeName → String
  | undefined => "undefined"
  | object => "object"
  | boolean => "boolean"
  | number => "number"
  | string => "string"
  | function => "function"

/-- The type name with a text. -/
def ofText? (s : String) : Option TypeName := all.find? (·.text == s)

end TypeName

/-- The type name of a value. -/
def Value.typeName : Value → TypeName
  | undefined => .undefined
  | null | object _ => .object
  | boolean _ => .boolean
  | int32 _ | double _ => .number
  | string _ => .string

end FastPath
