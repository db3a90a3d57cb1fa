import FastPath.Operator

/-!
# Stubs

A stub is the generic form of an operation, called by compiled code. It finds its
operands on the operand stack below the stack pointer and leaves its result where the
first operand was.
-/

namespace FastPath

/-- The generic operations that compiled code calls. -/
inductive Stub where
  | bit (op : BitOp)
  | bitNot
  | arith (op : ArithOp)
  | pos
  | not
  /-- Truthiness of the top of the stack, which stays. -/
  | truth
  | typeOf
  | compare (op : CompareOp)
  | getElem
  | setElem
  | newInit
  /-- An object of the template that the argument names. -/
  | newObject
  /-- An array literal of the length that the argument gives. -/
  | newArray
  /-- Define the property that the argument names. -/
  | initProp
  | initMethod
  /-- Define an element; a non-zero argument marks the last of its literal. -/
  | initElem
deriving DecidableEq, Repr, Inhabited

namespace Stub

/-- Every stub, in the order of their numbers. -/
def all : List Stub :=
  [bit .or, bit .and, bit .xor, bit .lsh, bit .rsh, bit .ursh, bitNot, arith .add, arith .sub,
   pos, not, truth, typeOf,
   compare (.equality false false), compare (.equality false true),
   compare (.equality true false), compare (.equality true true),
   compare (.relation .lt), compare (.relation .le), compare (.relation .gt),
   compare (.relation .ge),
   getElem, setElem, newInit, newObject, newArray, initProp, initMethod, initElem]

/-- The number of a stub. -/
def number (s : Stub) : Nat := all.idxOf s

/-- Operands on the stack. -/
def uses : Stub → Nat
  | newInit | newObject | newArray => 0
  | bitNot | pos | not | truth | typeOf => 1
  | setElem | initElem => 3
  | _ => 2

/-- Results left on the stack. -/
def defs : Stub → Nat
  | truth => 0
  | _ => 1

/-- The returned word is a boolean outcome. -/
def returnsBool : Stub → Bool
  | not | truth | compare _ => true
  | _ => false

/-- The bitwise operator of a stub. -/
def bitOp? : Stub → Option BitOp
  | bit op => some op
  | _ => none

/-- The name of a stub. -/
def name : Stub → String
  | bit .or => "bitor"
  | bit .and => "bitand"
  | bit .xor => "bitxor"
  | bit .lsh => "lsh"
  | bit .rsh => "rsh"
  | bit .ursh => "ursh"
  | bitNot => "bitnot"
  | arith .add => "add"
  | arith .sub => "sub"
  | pos => "pos"
  | not => "not"
  | truth => "value_to_boolean"
  | typeOf => "typeof"
  | compare (.equality false false) => "eq"
  | compare (.equality false true) => "ne"
  | compare (.equality true false) => "stricteq"
  | compare (.equality true true) => "strictne"
  | compare (.relation .lt) => "lt"
  | compare (.relation .le) => "le"
  | compare (.relation .gt) => "gt"
  | compare (.relation .ge) => "ge"
  | getElem => "getelem"
  | setElem => "setelem"
  | newInit => "newinit"
  | newObject => "newobject"
  | newArray => "newarray"
  | initProp => "initprop"
  | initMethod => "initmethod"
  | initElem => "initelem"

end Stub

end FastPath
