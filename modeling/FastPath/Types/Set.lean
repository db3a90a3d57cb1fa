import FastPath.Types.Known

/-!
# Type sets

A type set says which types a value may have, and for objects of which kind they are. It
is what the type oracle deals in. A 32-bit integer stored as a double counts as either
kind of number.
-/

namespace FastPath

/-- A set of primitive types and objects. -/
structure TypeFlags where
  undefined : Bool
  null : Bool
  boolean : Bool
  int32 : Bool
  double : Bool
  string : Bool
  object : Bool
deriving DecidableEq, Hashable, Repr, Inhabited

namespace TypeFlags

/-- No type. -/
def none : TypeFlags := ⟨false, false, false, false, false, false, false⟩

/-- Every type. -/
def all : TypeFlags := ⟨true, true, true, true, true, true, true⟩

/-- Both kinds of numbers. -/
def number : TypeFlags := { none with int32 := true, double := true }

/-- Types in both sets. -/
def inter (a b : TypeFlags) : TypeFlags where
  undefined := a.undefined && b.undefined
  null := a.null && b.null
  boolean := a.boolean && b.boolean
  int32 := a.int32 && b.int32
  double := a.double && b.double
  string := a.string && b.string
  object := a.object && b.object

/-- Values with the tag belong to the set. -/
def has (f : TypeFlags) : Tag → Bool
  | .double => f.double
  | .int32 => f.int32
  | .undefined => f.undefined
  | .boolean => f.boolean
  | .hole => false
  | .string => f.string
  | .null => f.null
  | .object => f.object

/-- The types of a statically known type. -/
def ofKnown : KnownType → TypeFlags
  | .unknown => all
  | .int32 => { none with int32 := true }
  | .double => number
  | .boolean => { none with boolean := true }
  | .string => { none with string := true }
  | .null => { none with null := true }
  | .undefined => { none with undefined := true }
  | .object => { none with object := true }

/-- The bit of each type, lowest first. -/
def toBools (f : TypeFlags) : List Bool :=
  [f.undefined, f.null, f.boolean, f.int32, f.double, f.string, f.object]

/-- The set as a bit pattern. -/
def bits (f : TypeFlags) : UInt8 :=
  f.toBools.foldr (fun b n => 2 * n + (if b then 1 else 0)) 0

/-- The set of a bit pattern; bits without a type are dropped. -/
def ofBits (n : UInt8) : TypeFlags where
  undefined := n.toNat.testBit 0
  null := n.toNat.testBit 1
  boolean := n.toNat.testBit 2
  int32 := n.toNat.testBit 3
  double := n.toNat.testBit 4
  string := n.toNat.testBit 5
  object := n.toNat.testBit 6

end TypeFlags

/-- What is known about the objects of a type set. -/
inductive ObjectKind where
  | unknown
  /-- Arrays. -/
  | denseArray
  /-- Arrays without holes below their initialized length. -/
  | packedArray
  /-- Ordinary objects. -/
  | plain
  | typedArray
deriving DecidableEq, Hashable, Repr, Inhabited

/-- Only arrays. -/
def ObjectKind.isDenseArray : ObjectKind → Bool
  | denseArray | packedArray => true
  | _ => false

/-- The possible types of a value. -/
structure TypeSet where
  flags : TypeFlags
  kind : ObjectKind
deriving DecidableEq, Hashable, Repr, Inhabited

namespace TypeSet

/-- Exactly these types, with nothing known about objects. -/
def of (flags : TypeFlags) : TypeSet := ⟨flags, .unknown⟩

/-- Any value. -/
def unknown : TypeSet := of .all

/-- Objects of one kind. -/
def objects (kind : ObjectKind) : TypeSet := ⟨.ofKnown .object, kind⟩

/-- The set of a statically known type. -/
def ofKnown (t : KnownType) : TypeSet := of (.ofKnown t)

/-- No type is excluded. -/
def isUnknown (s : TypeSet) : Bool := s.flags = .all

/-- The one type that all values of the set have. Doubles, with or without integers, are
numbers handled as doubles. -/
def knownType (s : TypeSet) : KnownType :=
  if s.flags = { TypeFlags.none with double := true } then .double
  else if s.flags = .all then .unknown
  else (KnownType.all.find? fun t => TypeFlags.ofKnown t = s.flags).getD .unknown

/-- A value of the set may carry the tag. -/
def mightBe (s : TypeSet) (t : Tag) : Bool := s.flags.has t

/-- The value belongs to the set. -/
def contains (s : TypeSet) (v : Value) : Bool :=
  match v with
  | .double d =>
    if (Value.number d).tag = .int32 then s.flags.int32 || s.flags.double
    else s.flags.double
  | v => s.mightBe v.tag

end TypeSet

end FastPath
