import FastPath.Heap.Class
import FastPath.Text.Numeral

/-!
# Errors of generic operations

Each constructor is one cause. A cause belongs to a kind: type and range errors are the
ones a program can raise, the others report a word that is no value.
-/

namespace FastPath

/-- The cause of a failed generic operation. -/
inductive OpError where
  /-- An element access on `null` or `undefined`. -/
  | nullishElement (isNull : Bool)
  | notTypedArrayClass (cls : ObjectClass)
  | initializerTarget
  /-- A name operand that is no string constant. -/
  | notAName (constant : Int)
  | noTemplate (template : Int)
  | templateName
  | invalidArrayLength
  | refusedExtent (extent : Extent) (value capacity : Nat)
  | literalTooLarge (count : Nat)
  | denseLimit (capacity : Nat)
  | operandBelowFrame
  | operandOutsideFrame (slot : Nat)
  | resultBelowFrame
  | resultOutsideFrame (slot : Nat)
  /-- A handle that names no live string. -/
  | invalidString (handle : Nat)
  /-- A handle that names no live object. -/
  | invalidObject (handle : Nat)
  /-- A tag word that is no tag. -/
  | invalidTag (tag : Nat)
  /-- An array hole where a value was needed. -/
  | unexpectedHole
deriving DecidableEq, Repr, Inhabited

namespace OpError

/-- The kinds of errors. -/
inductive Kind where
  | typeError
  | rangeError
  | invalidString
  | invalidObject
  | invalidTag
  | unexpectedHole
deriving DecidableEq, Repr, Inhabited

/-- The kind of a cause. -/
def kind : OpError → Kind
  | nullishElement _ | notTypedArrayClass _ | initializerTarget | notAName _ | noTemplate _
  | templateName => .typeError
  | invalidArrayLength | refusedExtent _ _ _ | literalTooLarge _ | denseLimit _
  | operandBelowFrame | operandOutsideFrame _ | resultBelowFrame
  | resultOutsideFrame _ => .rangeError
  | invalidString _ => .invalidString
  | invalidObject _ => .invalidObject
  | invalidTag _ => .invalidTag
  | unexpectedHole => .unexpectedHole

/-- What happened, without the kind. -/
def detail : OpError → String
  | nullishElement isNull =>
    let name := if isNull then "null" else "undefined"
    s!"cannot access an element of {name}"
  | notTypedArrayClass cls =>
    let name := cls.name
    s!"{name} is not a typed array class"
  | initializerTarget => "initializer target is not an object"
  | notAName constant =>
    let n := Numeral.ofInt constant
    s!"constant {n} is not a name"
  | noTemplate template =>
    let n := Numeral.ofInt template
    s!"no object template {n}"
  | templateName => "template name is not a string"
  | invalidArrayLength => "invalid array length"
  | refusedExtent extent value capacity =>
    let name := extent.name
    s!"cannot set {name} to {value} (capacity {capacity})"
  | literalTooLarge count => s!"array literal of length {count} is too large"
  | denseLimit capacity => s!"element capacity {capacity} exceeds the dense limit"
  | operandBelowFrame => "stub operand below the frame"
  | operandOutsideFrame slot => s!"stub operand {slot} outside the frame"
  | resultBelowFrame => "stub result below the frame"
  | resultOutsideFrame slot => s!"stub result {slot} outside the frame"
  | invalidString handle => s!"invalid string handle {handle}"
  | invalidObject handle => s!"invalid object handle {handle}"
  | invalidTag tag =>
    let digits := String.ofList (Nat.toDigits 16 tag)
    s!"invalid value tag 0x{digits}"
  | unexpectedHole => "unexpected hole"

/-- The wording of an error. -/
def message (e : OpError) : String :=
  match e.kind with
  | .typeError => "TypeError: " ++ e.detail
  | .rangeError => "RangeError: " ++ e.detail
  | _ => e.detail

end OpError

end FastPath
