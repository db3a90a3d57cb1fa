import FastPath.Value

/-!
# Known types

What the compiler may know about the type of a value. A known type fixes the tag of the
value, with one exception: a value known as a `double` is a number that is handled in a
double register, and in memory it may carry either number tag.
-/

namespace FastPath

/-- The statically known type of a value. -/
inductive KnownType where
  | unknown
  | int32
  /-- Some number, handled as a double. -/
  | double
  | boolean
  | string
  | null
  | undefined
  | object
deriving DecidableEq, Hashable, Repr, Inhabited

namespace KnownType

/-- Every known type. -/
def all : List KnownType := [unknown, int32, double, boolean, string, null, undefined, object]

/-- The tag that every value of the type has. -/
def tag? : KnownType → Option Tag
  | int32 => some .int32
  | boolean => some .boolean
  | string => some .string
  | null => some .null
  | undefined => some .undefined
  | object => some .object
  | unknown | double => none

/-- The type of a constant. -/
def ofValue : Value → KnownType
  | .undefined => undefined
  | .null => null
  | .boolean _ => boolean
  | .int32 _ => int32
  | .double _ => double
  | .string _ => string
  | .object _ => object

/-- Known to be a number. -/
def isNumber : KnownType → Bool
  | int32 | double => true
  | _ => false

/-- Known to be no number. -/
def isNonNumber : KnownType → Bool
  | unknown | int32 | double => false
  | _ => true

/-- The name of the type. -/
def name : KnownType → String
  | unknown => "Unknown"
  | int32 => "Int32"
  | double => "Double"
  | boolean => "Boolean"
  | string => "String"
  | null => "Null"
  | undefined => "Undefined"
  | object => "Object"

end KnownType

end FastPath
