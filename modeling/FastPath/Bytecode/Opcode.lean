/-!
# Opcodes

Each opcode has a byte, a name and the form of its inline operand. Bytes are grouped by
family, with gaps between the groups.
-/

namespace FastPath.Bytecode

/-- The form of an instruction's inline operand. -/
inductive OperandForm where
  /-- No operand. -/
  | none
  /-- A 16-bit variable index. -/
  | index16
  /-- A 32-bit index or count. -/
  | index32
  /-- A signed 32-bit number. -/
  | signed32
deriving DecidableEq, Repr, Inhabited

/-- Bytes of the operand in the encoded form. -/
def OperandForm.size : OperandForm → Nat
  | none => 0
  | index16 => 2
  | index32 | signed32 => 4

/-- The opcodes. -/
inductive Opcode where
  | nop | loopHead
  | undefined | null | pushTrue | pushFalse | int32 | double | string
  | getLocal | setLocal | getArg | setArg
  | incLocal | decLocal | localInc | localDec | incArg | decArg | argInc | argDec
  | pop | dup | swap
  | add | sub | pos
  | bitOr | bitAnd | bitXor | bitNot | lsh | rsh | ursh
  | eq | ne | strictEq | strictNe | lt | le | gt | ge
  | not | typeOf
  | goto | ifEq | ifNe | and | or
  | getElem | setElem
  | newInit | newObject | newArray | initProp | initMethod | initElem | endInit
  | ret | returnUndefined
deriving DecidableEq, Repr, Inhabited

namespace Opcode

/-- Every opcode, in the order of the bytes. -/
def all : List Opcode :=
  [nop, loopHead, undefined, null, pushTrue, pushFalse, int32, double, string,
   getLocal, setLocal, getArg, setArg,
   incLocal, decLocal, localInc, localDec, incArg, decArg, argInc, argDec,
   pop, dup, swap, add, sub, pos,
   bitOr, bitAnd, bitXor, bitNot, lsh, rsh, ursh,
   eq, ne, strictEq, strictNe, lt, le, gt, ge, not, typeOf,
   goto, ifEq, ifNe, and, or, getElem, setElem,
   newInit, newObject, newArray, initProp, initMethod, initElem, endInit,
   ret, returnUndefined]

/-- The encoded byte. -/
def byte : Opcode → UInt8
  | nop => 0x00 | loopHead => 0x01
  | undefined => 0x08 | null => 0x09 | pushTrue => 0x0A | pushFalse => 0x0B
  | int32 => 0x0C | double => 0x0D | string => 0x0E
  | getLocal => 0x10 | setLocal => 0x11 | getArg => 0x12 | setArg => 0x13
  | incLocal => 0x18 | decLocal => 0x19 | localInc => 0x1A | localDec => 0x1B
  | incArg => 0x1C | decArg => 0x1D | argInc => 0x1E | argDec => 0x1F
  | pop => 0x20 | dup => 0x21 | swap => 0x22
  | add => 0x28 | sub => 0x29 | pos => 0x2A
  | bitOr => 0x30 | bitAnd => 0x31 | bitXor => 0x32 | bitNot => 0x33
  | lsh => 0x34 | rsh => 0x35 | ursh => 0x36
  | eq => 0x40 | ne => 0x41 | strictEq => 0x42 | strictNe => 0x43
  | lt => 0x44 | le => 0x45 | gt => 0x46 | ge => 0x47
  | not => 0x50 | typeOf => 0x51
  | goto => 0x60 | ifEq => 0x61 | ifNe => 0x62 | and => 0x63 | or => 0x64
  | getElem => 0x70 | setElem => 0x71
  | newInit => 0x78 | newObject => 0x79 | newArray => 0x7A | initProp => 0x7B
  | initMethod => 0x7C | initElem => 0x7D | endInit => 0x7E
  | ret => 0x90 | returnUndefined => 0x91

/-- The opcode of a byte. -/
def ofByte? (b : UInt8) : Option Opcode := all.find? (·.byte == b)

/-- The name of the opcode. -/
def name : Opcode → String
  | nop => "Nop" | loopHead => "LoopHead"
  | undefined => "Undefined" | null => "Null" | pushTrue => "True" | pushFalse => "False"
  | int32 => "Int32" | double => "Double" | string => "String"
  | getLocal => "GetLocal" | setLocal => "SetLocal" | getArg => "GetArg" | setArg => "SetArg"
  | incLocal => "IncLocal" | decLocal => "DecLocal" | localInc => "LocalInc"
  | localDec => "LocalDec" | incArg => "IncArg" | decArg => "DecArg" | argInc => "ArgInc"
  | argDec => "ArgDec"
  | pop => "Pop" | dup => "Dup" | swap => "Swap"
  | add => "Add" | sub => "Sub" | pos => "Pos"
  | bitOr => "BitOr" | bitAnd => "BitAnd" | bitXor => "BitXor" | bitNot => "BitNot"
  | lsh => "Lsh" | rsh => "Rsh" | ursh => "Ursh"
  | eq => "Eq" | ne => "Ne" | strictEq => "StrictEq" | strictNe => "StrictNe"
  | lt => "Lt" | le => "Le" | gt => "Gt" | ge => "Ge"
  | not => "Not" | typeOf => "TypeOf"
  | goto => "Goto" | ifEq => "IfEq" | ifNe => "IfNe" | and => "And" | or => "Or"
  | getElem => "GetElem" | setElem => "SetElem"
  | newInit => "NewInit" | newObject => "NewObject" | newArray => "NewArray"
  | initProp => "InitProp" | initMethod => "InitMethod" | initElem => "InitElem"
  | endInit => "EndInit"
  | ret => "Return" | returnUndefined => "ReturnUndefined"

/-- The opcode with a name. -/
def ofName? (s : String) : Option Opcode := all.find? (·.name == s)

/-- The form of the inline operand. -/
def operand : Opcode → OperandForm
  | getLocal | setLocal | getArg | setArg
  | incLocal | decLocal | localInc | localDec | incArg | decArg | argInc | argDec => .index16
  | double | string | newObject | newArray | initProp | initMethod => .index32
  | int32 | goto | ifEq | ifNe | and | or => .signed32
  | _ => .none

/-- Bytes of the inline operand. -/
def operandSize (op : Opcode) : Nat := op.operand.size

/-- Decoding a byte inverts `byte`. -/
theorem ofByte?_byte (op : Opcode) : ofByte? op.byte = some op := by cases op <;> rfl

/-- A byte decodes to an opcode only if it is that opcode's byte. -/
theorem byte_of_ofByte? {b : UInt8} {op : Opcode} (h : ofByte? b = some op) : op.byte = b := by
  simpa using List.find?_some h

end Opcode

end FastPath.Bytecode
