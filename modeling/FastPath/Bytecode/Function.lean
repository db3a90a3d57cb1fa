import Std.Data.HashMap
import FastPath.Bytecode.Codec

/-!
# Functions

A function is a list of instructions with the constants and object templates they refer
to. Constants are pooled: equal strings share an index, and so do numbers with equal bit
patterns.

`Function.validate` checks that every operand refers to something the function has.
-/

namespace FastPath.Bytecode

/-- A constant of a function. -/
inductive Constant where
  | number (d : Double)
  | string (s : String)
deriving DecidableEq, Repr, Inhabited

namespace Constant

/-- The number, if the constant is one. -/
def number? : Constant → Option Double
  | number d => some d
  | string _ => none

/-- The text, if the constant is a string. -/
def string? : Constant → Option String
  | number _ => none
  | string s => some s

end Constant

/-- The constants of a function. Strings and numbers share a list; only strings have an index
to look them up in. -/
structure Pool where
  /-- The constants in order of their indices. -/
  items : Array Constant
  /-- The index of each string. -/
  strings : Std.HashMap String UInt32
deriving Inhabited

namespace Pool

/-- The pool without constants. -/
def empty : Pool := ⟨#[], ∅⟩

/-- Number of constants in the pool. -/
def size (p : Pool) : Nat := p.items.size

/-- The constant at index `i`. -/
def get? (p : Pool) (i : Nat) : Option Constant := p.items[i]?

/-- The index of a constant that is in the pool already. A number is searched for by its bits, so
that `0.0` and `-0.0` stay apart and every NaN is found. -/
def find? (p : Pool) : Constant → Option UInt32
  | .string s => p.strings[s]?
  | .number d =>
    (p.items.findIdx? fun c => c.number?.any (·.bits == d.bits)).map UInt32.ofNat

/-- The index of a constant, which is entered at the end if it is new. -/
def add (p : Pool) (c : Constant) : UInt32 × Pool :=
  match p.find? c with
  | some i => (i, p)
  | none =>
    let i := UInt32.ofNat p.size
    let strings := match c with
      | .string s => p.strings.insert s i
      | .number _ => p.strings
    (i, ⟨p.items.push c, strings⟩)

end Pool

/-- The layout of an object literal: property `i` lives in slot `i`. Properties are
indices of string constants. -/
structure Template where
  properties : Array Nat
deriving DecidableEq, Repr, Inhabited

/-- The slot a template gives to a name. -/
def Template.slotOf? (t : Template) (name : Nat) : Option Nat := t.properties.idxOf? name

/-- A bytecode function. The pc of an instruction is its index. -/
structure Function where
  name : Option String
  paramCount : Nat
  localCount : Nat
  code : Array Instr
  constants : Pool
  templates : Array Template
deriving Inhabited

namespace Function

/-- The name, or a placeholder. -/
def displayName (f : Function) : String := f.name.getD "<anonymous>"

/-- The text of string constant `i`. -/
def stringConstant? (f : Function) (i : Nat) : Option String :=
  (f.constants.get? i).bind Constant.string?

/-- The value of number constant `i`. -/
def numberConstant? (f : Function) (i : Nat) : Option Double :=
  (f.constants.get? i).bind Constant.number?

/-- Template `i`. -/
def template? (f : Function) (i : Nat) : Option Template := f.templates[i]?

/-- Where the jump at `pc` leads, if that is an instruction of the function. -/
def jumpTarget? (f : Function) (pc : Nat) : Option Nat := do
  let instr ← f.code[pc]?
  let offset ← instr.jumpOffset?
  let target ← Bytecode.jumpTarget? pc offset
  if target < f.code.size then some target else none

/-- The encoded instructions. -/
def encode (f : Function) : List UInt8 := encodeAll f.code.toList

/-! ### Building -/

/-- The function without instructions, constants or templates. -/
def empty (name : Option String) (paramCount localCount : Nat) : Function where
  name := name
  paramCount := paramCount
  localCount := localCount
  code := #[]
  constants := .empty
  templates := #[]

/-- Add a constant; gives its index. -/
def addConstant (f : Function) (c : Constant) : Nat × Function :=
  let (i, constants) := f.constants.add c
  (i.toNat, { f with constants })

/-- Add string constants in order; gives their indices. -/
def addStrings (f : Function) : List String → List Nat × Function
  | [] => ([], f)
  | s :: ss =>
    let (i, f) := f.addConstant (.string s)
    let (is, f) := f.addStrings ss
    (i :: is, f)

/-- Add a template whose properties have the given names. -/
def addTemplate (f : Function) (names : List String) : Function :=
  let (properties, f) := f.addStrings names
  { f with templates := f.templates.push ⟨properties.toArray⟩ }

/-! ### Validation -/

/-- What is wrong with a variable operand. -/
def varFault? (f : Function) : Var → Option OperandFault
  | .loc i => if i.toNat < f.localCount then none else some (.noLocal i.toNat f.localCount)
  | .arg i => if i.toNat < f.paramCount then none else some (.noArgument i.toNat f.paramCount)

/-- What is wrong with an operand that should be a string constant. -/
def nameFault? (f : Function) (c : UInt32) : Option OperandFault :=
  if (f.stringConstant? c.toNat).isSome then none else some (.notAString c.toNat)

/-- What is wrong with the operand of an instruction, jumps apart. -/
def operandFault? (f : Function) : Instr → Option OperandFault
  | .get v | .set v | .bump _ v => f.varFault? v
  | .push (.double c) =>
    if (f.numberConstant? c.toNat).isSome then none else some (.notANumber c.toNat)
  | .push (.string c) | .initProp c | .initMethod c => f.nameFault? c
  | .newObject t => if (f.template? t.toNat).isSome then none else some (.noTemplate t.toNat)
  | _ => none

/-- What is wrong with the instruction at `pc`. -/
def instrError? (f : Function) (pc : Nat) (i : Instr) : Option Error :=
  match i.jumpOffset? with
  | some offset =>
    if (f.jumpTarget? pc).isSome then none
    else some (.jumpOutOfRange pc offset.toInt f.code.size)
  | none => (f.operandFault? i).map (.invalidOperand pc)

/-- What is wrong with the templates. -/
def templateError? (f : Function) : Option Error :=
  (f.templates.toList.flatMap (·.properties.toList)).findSome? fun c =>
    if (f.stringConstant? c).isSome then none
    else some (.invalidOperand 0 (.templateProperty c))

/-- The first error of a function: instructions in order, then templates. -/
def error? (f : Function) : Option Error :=
  (f.code.toList.zipIdx.findSome? fun (i, pc) => f.instrError? pc i).or f.templateError?

/-- Check that every operand refers to something the function has. -/
def validate (f : Function) : Except Error Unit :=
  match f.error? with
  | some e => .error e
  | none => .ok ()

end Function

end FastPath.Bytecode
