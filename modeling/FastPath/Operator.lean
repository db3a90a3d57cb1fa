/-!
# Operators

The operators of the language, shared by the bytecode, the generic operations and the
code that specializes them.
-/

namespace FastPath

/-- The additive operators. -/
inductive ArithOp where
  | add
  | sub
deriving DecidableEq, Repr, Inhabited

/-- The binary bitwise operators. -/
inductive BitOp where
  | or
  | and
  | xor
  | lsh
  | rsh
  | ursh
deriving DecidableEq, Repr, Inhabited

namespace BitOp

/-- The operands may be exchanged. -/
def isCommutative : BitOp → Bool
  | or | and | xor => true
  | lsh | rsh | ursh => false

/-- A right operand of zero leaves the left operand as it is. -/
def zeroIsIdentity : BitOp → Bool
  | or | xor | lsh | rsh => true
  | and | ursh => false

end BitOp

/-- The relational operators. -/
inductive RelOp where
  | lt
  | le
  | gt
  | ge
deriving DecidableEq, Repr, Inhabited

/-- The comparison operators: the four equalities and the four relations. -/
inductive CompareOp where
  | equality (strict negated : Bool)
  | relation (op : RelOp)
deriving DecidableEq, Repr, Inhabited

namespace CompareOp

/-- One of the four equalities. -/
def isEquality : CompareOp → Bool
  | equality _ _ => true
  | relation _ => false

/-- An equality that converts nothing. -/
def isStrict : CompareOp → Bool
  | equality strict _ => strict
  | relation _ => false

/-- An equality that asks for difference. -/
def isNegated : CompareOp → Bool
  | equality _ negated => negated
  | relation _ => false

/-- Holds of a value and itself, NaN apart. -/
def isReflexive : CompareOp → Bool
  | equality _ negated => !negated
  | relation op => op = .le || op = .ge

end CompareOp

/-- The conditional jumps: on which truth value they jump, and whether the tested value
stays on the stack when they do. -/
inductive BranchKind where
  /-- Jump if falsy, dropping the value. -/
  | ifFalsy
  /-- Jump if truthy, dropping the value. -/
  | ifTruthy
  /-- Jump if falsy, keeping the value on the taken edge. -/
  | and
  /-- Jump if truthy, keeping the value on the taken edge. -/
  | or
deriving DecidableEq, Repr, Inhabited

namespace BranchKind

/-- The truth value that takes the jump. -/
def jumpsOn : BranchKind → Bool
  | ifFalsy | and => false
  | ifTruthy | or => true

/-- The value stays on the stack on the taken edge. -/
def keepsValue : BranchKind → Bool
  | ifFalsy | ifTruthy => false
  | and | or => true

end BranchKind

/-- The increment and decrement forms. -/
inductive BumpForm where
  | preInc
  | preDec
  | postInc
  | postDec
deriving DecidableEq, Repr, Inhabited

namespace BumpForm

/-- The form yields the old value. -/
def isPost : BumpForm → Bool
  | preInc | preDec => false
  | postInc | postDec => true

/-- What the form adds. -/
def delta : BumpForm → Int32
  | preInc | postInc => 1
  | preDec | postDec => -1

end BumpForm

end FastPath
