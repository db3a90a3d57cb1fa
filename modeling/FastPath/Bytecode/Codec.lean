import FastPath.Bytecode.Instr
import FastPath.Bytecode.Error

/-!
# The byte encoding

An instruction is its opcode byte followed by its operand word, least significant byte
first and cut to the size the opcode gives it. Decoding fails exactly where a byte is no
opcode or an operand runs past the end.
-/

namespace FastPath.Bytecode

/-- The low `size` bytes of a word, least significant first. -/
def wordBytes : (size : Nat) → Nat → List UInt8
  | 0, _ => []
  | size + 1, w => UInt8.ofNat w :: wordBytes size (w / 256)

/-- The word with the given bytes, least significant first. -/
def bytesWord : List UInt8 → Nat
  | [] => 0
  | b :: bs => b.toNat + 256 * bytesWord bs

/-- The bytes of one instruction. -/
def Instr.encode (i : Instr) : List UInt8 :=
  i.opcode.byte :: wordBytes i.opcode.operandSize i.word.toNat

/-- The bytes of a list of instructions. -/
def encodeAll (is : List Instr) : List UInt8 := is.flatMap Instr.encode

/-- Decode the instruction whose opcode byte `b` stands at `offset`, with `rest` behind
it; gives the instruction and the number of operand bytes. -/
def decodeHead (offset : Nat) (b : UInt8) (rest : List UInt8) : Except Error (Instr × Nat) :=
  match Opcode.ofByte? b with
  | none => .error (.invalidOpcode b offset)
  | some op =>
    let size := op.operandSize
    if rest.length < size then .error (.unexpectedEnd (offset + 1))
    else .ok (Instr.ofWord op (UInt32.ofNat (bytesWord (rest.take size))), size)

/-- Decode the instruction at a byte offset; gives the instruction and its length. -/
def decodeAt (bytes : List UInt8) (offset : Nat) : Except Error (Instr × Nat) :=
  match bytes.drop offset with
  | [] => .error (.unexpectedEnd offset)
  | b :: rest => (decodeHead offset b rest).map fun (i, size) => (i, 1 + size)

/-- Decode every instruction of a stream that starts at byte `offset`. -/
def decodeFrom (offset : Nat) (bytes : List UInt8) : Except Error (List Instr) :=
  match bytes with
  | [] => .ok []
  | b :: rest =>
    match decodeHead offset b rest with
    | .error e => .error e
    | .ok (i, size) =>
      match decodeFrom (offset + 1 + size) (rest.drop size) with
      | .error e => .error e
      | .ok is => .ok (i :: is)
termination_by bytes.length
decreasing_by
  simp only [List.length_drop, List.length_cons]
  omega

/-- Decode a whole stream. -/
def decodeAll (bytes : List UInt8) : Except Error (List Instr) := decodeFrom 0 bytes

end FastPath.Bytecode
