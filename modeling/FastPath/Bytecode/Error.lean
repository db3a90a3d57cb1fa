import FastPath.Text.Hex

/-!
# Errors in bytecode

What can be wrong with an encoded instruction stream, and with the operands of a
function's instructions.
-/

namespace FastPath.Bytecode

/-- An operand that refers to nothing the function has. -/
inductive OperandFault where
  | noLocal (index count : Nat)
  | noArgument (index count : Nat)
  | notANumber (constant : Nat)
  | notAString (constant : Nat)
  | noTemplate (template : Nat)
  | templateProperty (constant : Nat)
deriving DecidableEq, Repr, Inhabited

namespace OperandFault

/-- The wording of an operand fault. -/
def message : OperandFault → String
  | noLocal i n => s!"local {i} of {n}"
  | noArgument i n => s!"argument {i} of {n}"
  | notANumber c => s!"constant {c} is not a number"
  | notAString c => s!"constant {c} is not a string"
  | noTemplate t => s!"template {t}"
  | templateProperty c => s!"template property {c} is not a string"

end OperandFault

/-- An error in bytecode. -/
inductive Error where
  /-- A byte that is no opcode. -/
  | invalidOpcode (byte : UInt8) (offset : Nat)
  /-- The stream ends where a byte is needed. -/
  | unexpectedEnd (offset : Nat)
  | invalidOperand (pc : Nat) (fault : OperandFault)
  /-- A jump out of a function of `length` instructions. -/
  | jumpOutOfRange (pc : Nat) (offset : Int) (length : Nat)
deriving DecidableEq, Repr, Inhabited

namespace Error

/-- The wording of an error. -/
def message : Error → String
  | invalidOpcode byte offset =>
    let digits := Hex.ofByte byte
    s!"Invalid opcode 0x{digits} at byte offset {offset}"
  | unexpectedEnd offset => s!"Unexpected end of bytecode at byte offset {offset}"
  | invalidOperand pc fault =>
    let detail := fault.message
    s!"Invalid operand at pc {pc}: {detail}"
  | jumpOutOfRange pc offset length =>
    let distance := Numeral.ofInt offset
    s!"Jump at pc {pc} with offset {distance} leaves the function (len={length})"

end Error

end FastPath.Bytecode
