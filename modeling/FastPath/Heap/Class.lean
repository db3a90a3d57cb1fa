/-!
# Object classes and extents

The class of an object is the part that class guards test. The extents are the words of
an object that compiled code may read and, but for the capacity, write.
-/

namespace FastPath

/-- The class of a heap object. -/
inductive ObjectClass where
  | plain
  | array
  | int32Array
  | float64Array
deriving DecidableEq, Hashable, Repr, Inhabited

namespace ObjectClass

/-- The classes with a fixed length and one element type. -/
def isTypedArray : ObjectClass → Bool
  | plain | array => false
  | int32Array | float64Array => true

/-- The name of the class. -/
def name : ObjectClass → String
  | plain => "Plain"
  | array => "Array"
  | int32Array => "Int32Array"
  | float64Array => "Float64Array"

end ObjectClass

/-- A per-object word that describes the element storage. -/
inductive Extent where
  /-- Number of initialized element cells. -/
  | initializedLength
  /-- Number of allocated element cells. -/
  | capacity
  /-- The visible length. -/
  | length
deriving DecidableEq, Repr, Inhabited

/-- The name of the extent. -/
def Extent.name : Extent → String
  | initializedLength => "InitializedLength"
  | capacity => "Capacity"
  | length => "Length"

end FastPath
