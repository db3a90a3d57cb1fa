import FastPath.Compile.Arith

/-!
# Increments and decrements

An increment is composed of the arithmetic operators. The prefix forms subtract the
negated amount: a subtraction never concatenates. The postfix forms first convert the old
value to a number, which is what they yield; when that value is dropped by a following
`pop`, they are compiled like the prefix forms.
-/

namespace FastPath

namespace CompileM

/-- The postfix form whose value is used. -/
def bumpKeeping (form : BumpForm) (v : Bytecode.Var) : CompileM Unit := do
  nextStep (← pos)
  AsmM.updateFrame fun f => f.dup.pushConstant (.int32 form.delta)
  nextStep (← arith .add (.of .number))
  FrameM.storeVar v false
  AsmM.updateFrame Frame.pop

/-- Increment or decrement a variable. Gives the number of instructions absorbed. -/
def bump (form : BumpForm) (v : Bytecode.Var) : CompileM (Emitted × Nat) := do
  let popped := (← fusable? 1) = some .pop
  if popped then absorb 2
  AsmM.updateFrame (·.pushVar v)
  if form.isPost && !popped then
    bumpKeeping form v
    return (.inline, 0)
  else
    AsmM.updateFrame (·.pushConstant (.int32 (-form.delta)))
    nextStep (← arith .sub (← stubTypes (.arith .sub)))
    FrameM.storeVar v popped
    return (.inline, if popped then 1 else 0)

end CompileM

end FastPath
