import FastPath.Compile.Guard

/-!
# Type names

A `typeof` whose operand has a known type is a constant. One that is only compared with a
type name becomes a single test of the tag, where one tag or range of tags has that name;
`object` and `function` have none, since they share tags.
-/

namespace FastPath

/-- The test of the tag that is equivalent to having a type name. -/
def TypeName.tagTest? : TypeName → Option (Cond × Tag)
  | undefined => some (.equal, .undefined)
  | boolean => some (.equal, .boolean)
  | string => some (.equal, .string)
  | number => some (.unsigned .le, .numberMax)
  | object | function => none

/-- The type name that a known type decides. -/
def KnownType.typeName? : KnownType → Option TypeName
  | int32 | double => some .number
  | boolean => some .boolean
  | string => some .string
  | undefined => some .undefined
  | null => some .object
  | object | unknown => none

/-- The branch forms that drop the value: the truth value that takes the jump. -/
def Bytecode.Instr.plainBranch? : Instr → Option Bool
  | branch .ifFalsy _ => some false
  | branch .ifTruthy _ => some true
  | _ => none

namespace CompileM

open AsmM (frame)

/-- The comparison of a `typeof` with a type name that follows it: the name, and whether
the comparison is negated. -/
def typeOfComparison? : CompileM (Option (TypeName × Bool)) := do
  match ← fusable? 1, ← fusable? 2 with
  | some (.push (.string c)), some (.compare (.equality _ negated)) =>
    let f := (← read).function
    return ((f.stringConstant? c.toNat).bind TypeName.ofText?).map (·, negated)
  | _, _ => return none

/-- A test of the tag of `x`, compiled together with the branch on it. -/
def typeOfBranch (x : Slot) (holds : Cond) (tag : Tag) (onTrue : Bool) :
    CompileM (Emitted × Nat) := do
  let target ← jumpTarget 3
  absorb 4
  let operand ← FrameM.tagOperand x
  AsmM.updateFrame Frame.pop
  FrameM.syncAll
  let cond := if onTrue then holds else holds.invert
  AsmM.linkPc (← AsmM.branch .fast (.compare cond operand (.ofTag tag))) target
  return (.inline, 3)

/-- A test of the tag of `x` as a boolean. -/
def typeOfTest (x : Slot) (holds : Cond) (tag : Tag) : CompileM (Emitted × Nat) := do
  absorb 3
  let tagReg ← FrameM.tagReg x
  let pins ← pin tagReg
  let res ← FrameM.alloc
  AsmM.emit .fast (.set holds tagReg (.ofTag tag) res)
  unpinAll pins
  replaceByBoolean 1 res
  return (.inline, 2)

/-- A `typeof` that is compiled by itself. -/
def typeOfAlone (known : KnownType) : CompileM (Emitted × Nat) := do
  match known.typeName? with
  | some name =>
    replaceByConstant 1 (.string name.strId)
    return (.inline, 0)
  | none => return (← emitStub .typeOf 0, 0)

/-- The type name of the top, together with a comparison and a branch that follow, where
that is one test. Gives the number of instructions absorbed. -/
def typeOf : CompileM (Emitted × Nat) := do
  let f ← frame
  let x := f.peek 1
  let known := f.knownType x
  match ← typeOfComparison? with
  | none => typeOfAlone known
  | some (name, negated) =>
    match known.typeName?, known, name.tagTest? with
    | some actual, _, _ =>
      absorb 3
      replaceByConstant 1 (.boolean ((actual == name) != negated))
      return (.inline, 2)
    | none, .unknown, some (cond, tag) =>
      let holds := if negated then cond.invert else cond
      match (← fusable? 3).bind Bytecode.Instr.plainBranch? with
      | some onTrue => typeOfBranch x holds tag onTrue
      | none => typeOfTest x holds tag
    | _, _, _ => typeOfAlone known

end CompileM

end FastPath
