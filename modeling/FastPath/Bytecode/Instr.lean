import FastPath.Operator
import FastPath.Bytecode.Opcode

/-!
# Bytecode instructions

An instruction is given by what it does: the eight increment forms, say, are one
constructor with a form and a variable. Every instruction is an opcode together with one
operand word (`Instr.opcode`, `Instr.word`), and `Instr.ofWord` puts the two back
together; the byte encoding and the textual form are both built on that.

Stack effects are given per edge: the fall-through edge of every instruction, and the
taken edge of a jump.
-/

namespace FastPath.Bytecode

/-- A variable of the function. -/
inductive Var where
  | loc (index : UInt16)
  | arg (index : UInt16)
deriving DecidableEq, Repr, Inhabited

/-- A constant operand; numbers that are not 32-bit integers and strings live in the
constant pool. -/
inductive Literal where
  | undefined
  | null
  | bool (b : Bool)
  | int32 (i : Int32)
  | double (constant : UInt32)
  | string (constant : UInt32)
deriving DecidableEq, Repr, Inhabited

/-- One bytecode instruction. -/
inductive Instr where
  | nop
  /-- Marks the head of a loop. -/
  | loopHead
  | push (literal : Literal)
  | get (var : Var)
  /-- Store the top of the stack, which stays. -/
  | set (var : Var)
  | bump (form : BumpForm) (var : Var)
  | pop
  | dup
  | swap
  | arith (op : ArithOp)
  /-- Unary plus. -/
  | pos
  | bit (op : BitOp)
  | bitNot
  | compare (op : CompareOp)
  | not
  | typeOf
  | goto (offset : Int32)
  | branch (kind : BranchKind) (offset : Int32)
  | getElem
  | setElem
  /-- Open an object literal without a template. -/
  | newInit
  | newObject (template : UInt32)
  | newArray (count : UInt32)
  | initProp (name : UInt32)
  | initMethod (name : UInt32)
  | initElem
  /-- Close a literal. -/
  | endInit
  | ret
  | returnUndefined
deriving DecidableEq, Repr, Inhabited

namespace Instr

/-! ### Opcode and operand word -/

/-- The opcode of an instruction. -/
def opcode : Instr → Opcode
  | nop => .nop
  | loopHead => .loopHead
  | push .undefined => .undefined
  | push .null => .null
  | push (.bool true) => .pushTrue
  | push (.bool false) => .pushFalse
  | push (.int32 _) => .int32
  | push (.double _) => .double
  | push (.string _) => .string
  | get (.loc _) => .getLocal
  | get (.arg _) => .getArg
  | set (.loc _) => .setLocal
  | set (.arg _) => .setArg
  | bump .preInc (.loc _) => .incLocal
  | bump .preDec (.loc _) => .decLocal
  | bump .postInc (.loc _) => .localInc
  | bump .postDec (.loc _) => .localDec
  | bump .preInc (.arg _) => .incArg
  | bump .preDec (.arg _) => .decArg
  | bump .postInc (.arg _) => .argInc
  | bump .postDec (.arg _) => .argDec
  | pop => .pop
  | dup => .dup
  | swap => .swap
  | arith .add => .add
  | arith .sub => .sub
  | pos => .pos
  | bit .or => .bitOr
  | bit .and => .bitAnd
  | bit .xor => .bitXor
  | bit .lsh => .lsh
  | bit .rsh => .rsh
  | bit .ursh => .ursh
  | bitNot => .bitNot
  | compare (.equality false false) => .eq
  | compare (.equality false true) => .ne
  | compare (.equality true false) => .strictEq
  | compare (.equality true true) => .strictNe
  | compare (.relation .lt) => .lt
  | compare (.relation .le) => .le
  | compare (.relation .gt) => .gt
  | compare (.relation .ge) => .ge
  | not => .not
  | typeOf => .typeOf
  | goto _ => .goto
  | branch .ifFalsy _ => .ifEq
  | branch .ifTruthy _ => .ifNe
  | branch .and _ => .and
  | branch .or _ => .or
  | getElem => .getElem
  | setElem => .setElem
  | newInit => .newInit
  | newObject _ => .newObject
  | newArray _ => .newArray
  | initProp _ => .initProp
  | initMethod _ => .initMethod
  | initElem => .initElem
  | endInit => .endInit
  | ret => .ret
  | returnUndefined => .returnUndefined

/-- The variable index as an operand word. -/
def varWord : Var → UInt32
  | .loc i | .arg i => i.toUInt32

/-- The operand word of an instruction; zero when it has no operand. -/
def word : Instr → UInt32
  | push (.int32 i) => i.toUInt32
  | push (.double c) | push (.string c) => c
  | get v | set v | bump _ v => varWord v
  | goto offset | branch _ offset => offset.toUInt32
  | newObject n | newArray n | initProp n | initMethod n => n
  | _ => 0

/-- The instruction with an opcode and an operand word. -/
def ofWord (op : Opcode) (w : UInt32) : Instr :=
  match op with
  | .nop => nop
  | .loopHead => loopHead
  | .undefined => push .undefined
  | .null => push .null
  | .pushTrue => push (.bool true)
  | .pushFalse => push (.bool false)
  | .int32 => push (.int32 w.toInt32)
  | .double => push (.double w)
  | .string => push (.string w)
  | .getLocal => get (.loc w.toUInt16)
  | .setLocal => set (.loc w.toUInt16)
  | .getArg => get (.arg w.toUInt16)
  | .setArg => set (.arg w.toUInt16)
  | .incLocal => bump .preInc (.loc w.toUInt16)
  | .decLocal => bump .preDec (.loc w.toUInt16)
  | .localInc => bump .postInc (.loc w.toUInt16)
  | .localDec => bump .postDec (.loc w.toUInt16)
  | .incArg => bump .preInc (.arg w.toUInt16)
  | .decArg => bump .preDec (.arg w.toUInt16)
  | .argInc => bump .postInc (.arg w.toUInt16)
  | .argDec => bump .postDec (.arg w.toUInt16)
  | .pop => pop
  | .dup => dup
  | .swap => swap
  | .add => arith .add
  | .sub => arith .sub
  | .pos => pos
  | .bitOr => bit .or
  | .bitAnd => bit .and
  | .bitXor => bit .xor
  | .bitNot => bitNot
  | .lsh => bit .lsh
  | .rsh => bit .rsh
  | .ursh => bit .ursh
  | .eq => compare (.equality false false)
  | .ne => compare (.equality false true)
  | .strictEq => compare (.equality true false)
  | .strictNe => compare (.equality true true)
  | .lt => compare (.relation .lt)
  | .le => compare (.relation .le)
  | .gt => compare (.relation .gt)
  | .ge => compare (.relation .ge)
  | .not => not
  | .typeOf => typeOf
  | .goto => goto w.toInt32
  | .ifEq => branch .ifFalsy w.toInt32
  | .ifNe => branch .ifTruthy w.toInt32
  | .and => branch .and w.toInt32
  | .or => branch .or w.toInt32
  | .getElem => getElem
  | .setElem => setElem
  | .newInit => newInit
  | .newObject => newObject w
  | .newArray => newArray w
  | .initProp => initProp w
  | .initMethod => initMethod w
  | .initElem => initElem
  | .endInit => endInit
  | .ret => ret
  | .returnUndefined => returnUndefined

/-- An instruction is its opcode and operand word. -/
theorem ofWord_word (i : Instr) : ofWord i.opcode i.word = i := by
  fun_cases opcode i <;> simp [word, ofWord, varWord]

/-- The opcode survives the round trip. -/
theorem opcode_ofWord (op : Opcode) (w : UInt32) : (ofWord op w).opcode = op := by
  cases op <;> rfl

/-! ### Stack effect -/

/-- Values an instruction takes from the stack and leaves on it. -/
structure StackEffect where
  uses : Nat
  defs : Nat
deriving DecidableEq, Repr, Inhabited

/-- Net change of the stack depth. -/
def StackEffect.delta (e : StackEffect) : Int := (e.defs : Int) - e.uses

/-- Stack effect on the fall-through edge. -/
def stackEffect : Instr → StackEffect
  | nop | loopHead | goto _ | endInit | returnUndefined => ⟨0, 0⟩
  | push _ | get _ | bump _ _ | newInit | newObject _ | newArray _ => ⟨0, 1⟩
  | set _ | pos | bitNot | not | typeOf => ⟨1, 1⟩
  | pop | branch _ _ | ret => ⟨1, 0⟩
  | dup => ⟨1, 2⟩
  | swap => ⟨2, 2⟩
  | arith _ | bit _ | compare _ | getElem | initProp _ | initMethod _ => ⟨2, 1⟩
  | setElem | initElem => ⟨3, 1⟩

/-- Stack effect on the taken edge of a jump. -/
def takenEffect? : Instr → Option StackEffect
  | goto _ => some ⟨0, 0⟩
  | branch kind _ => some (if kind.keepsValue then ⟨1, 1⟩ else ⟨1, 0⟩)
  | _ => none

/-- The relative target of a jump. -/
def jumpOffset? : Instr → Option Int32
  | goto offset | branch _ offset => some offset
  | _ => none

/-- Control never falls through to the next instruction. -/
def isTerminator : Instr → Bool
  | goto _ | ret | returnUndefined => true
  | _ => false

end Instr

/-- The instruction a jump at `pc` leads to, if it is not before the first. Positions are
64-bit words and a target is read as a signed one, so a jump past the last word wraps
around and the upper half of the words counts as before the first instruction. -/
def jumpTarget? (pc : Nat) (offset : Int32) : Option Nat :=
  let target := Int.bmod (pc + offset.toInt) UInt64.size
  if target < 0 then none else some target.toNat

/-- Far from the upper half of the words a target is the exact sum. -/
theorem jumpTarget?_eq {pc : Nat} (h : pc < 0x7fffffff80000000) (offset : Int32) :
    jumpTarget? pc offset =
      if (pc : Int) + offset.toInt < 0 then none else some (pc + offset.toInt).toNat := by
  have hlo : -0x80000000 ≤ offset.toInt := offset.minValue_le_toInt
  have hhi : offset.toInt ≤ 0x7fffffff := offset.toInt_le
  have hwrap : Int.bmod (pc + offset.toInt) UInt64.size = pc + offset.toInt :=
    Int.bmod_eq_of_le (by change -0x8000000000000000 ≤ _; omega)
      (by change _ < 0x8000000000000000; omega)
  simp only [jumpTarget?, hwrap]

end FastPath.Bytecode
