import FastPath.Bytecode.Function

/-!
# What validation accepts

A function is valid when every operand refers to something it has. Validation looks at the
instructions in order and at the templates last, so the error it reports is that of the first
instruction with a bad operand, and one of a template only when there is no such instruction.
-/

namespace FastPath.Bytecode.Function

/-- The jump at `pc` leads to an instruction. -/
def Lands (f : Function) (pc : Nat) (offset : Int32) : Prop :=
  ∃ target < f.code.size, Bytecode.jumpTarget? pc offset = some target

/-- Constant `c` is a string. -/
def HasName (f : Function) (c : Nat) : Prop := ∃ s, f.constants.get? c = some (.string s)

/-- The operand of the instruction at `pc` refers to something the function has. -/
def Refers (f : Function) (pc : Nat) : Instr → Prop
  | .goto offset | .branch _ offset => f.Lands pc offset
  | .get (.loc i) | .set (.loc i) | .bump _ (.loc i) => i.toNat < f.localCount
  | .get (.arg i) | .set (.arg i) | .bump _ (.arg i) => i.toNat < f.paramCount
  | .push (.double c) => ∃ d, f.constants.get? c.toNat = some (.number d)
  | .push (.string c) | .initProp c | .initMethod c => f.HasName c.toNat
  | .newObject t => t.toNat < f.templates.size
  | .nop | .loopHead | .push .undefined | .push .null | .push (.bool _) | .push (.int32 _) | .pop
  | .dup | .swap | .arith _ | .pos | .bit _ | .bitNot | .compare _ | .not | .typeOf | .getElem
  | .setElem | .newInit | .newArray _ | .initElem | .endInit | .ret | .returnUndefined => True

/-- Every operand of an instruction refers to something. -/
def Resolves (f : Function) : Prop := ∀ pc i, f.code[pc]? = some i → f.Refers pc i

/-- Every property of every template has a name. -/
def NamesTemplates (f : Function) : Prop := ∀ t ∈ f.templates, ∀ c ∈ t.properties, f.HasName c

/-- Instruction `i` at `pc` is the first with a bad operand. -/
def FirstBad (f : Function) (pc : Nat) (i : Instr) : Prop :=
  f.code[pc]? = some i ∧ ¬ f.Refers pc i ∧ ∀ q < pc, ∀ j, f.code[q]? = some j → f.Refers q j

/-- The error is the one to report. -/
inductive Rejected (f : Function) : Error → Prop
  | jump {pc i offset} : f.FirstBad pc i → i.jumpOffset? = some offset →
    f.Rejected (.jumpOutOfRange pc offset.toInt f.code.size)
  | operand {pc i fault} : f.FirstBad pc i → i.jumpOffset? = none →
    f.operandFault? i = some fault → f.Rejected (.invalidOperand pc fault)
  | template {t c} : f.Resolves → t ∈ f.templates → c ∈ t.properties → ¬ f.HasName c →
    f.Rejected (.invalidOperand 0 (.templateProperty c))

variable {f : Function} {pc : Nat} {i : Instr} {e : Error}

theorem isSome_stringConstant? {c : Nat} : (f.stringConstant? c).isSome ↔ f.HasName c := by
  unfold stringConstant? HasName
  rcases f.constants.get? c with _ | _ | _ <;> simp [Constant.string?]

theorem isSome_numberConstant? {c : Nat} :
    (f.numberConstant? c).isSome ↔ ∃ d, f.constants.get? c = some (.number d) := by
  unfold numberConstant?
  rcases f.constants.get? c with _ | _ | _ <;> simp [Constant.number?]

theorem isSome_jumpTarget? {offset : Int32} (hi : f.code[pc]? = some i)
    (hj : i.jumpOffset? = some offset) : (f.jumpTarget? pc).isSome ↔ f.Lands pc offset := by
  simp only [jumpTarget?, hi, hj, Lands, bind, Option.bind]
  cases Bytecode.jumpTarget? pc offset <;> simp

theorem check_eq_none_iff {p : Prop} [Decidable p] {α : Type} {a : α} :
    (if p then none else some a) = none ↔ p := by
  by_cases hp : p <;> simp [hp]

/-- An instruction has no error exactly if its operand refers to something. -/
theorem instrError?_eq_none_iff (hi : f.code[pc]? = some i) :
    f.instrError? pc i = none ↔ f.Refers pc i := by
  have hfault {p : Prop} [Decidable p] {fault : OperandFault} :
      (if p then none else some fault).map (Error.invalidOperand pc) = none ↔ p :=
    Option.map_eq_none_iff.trans check_eq_none_iff
  cases i with
  | goto | branch => exact check_eq_none_iff.trans (isSome_jumpTarget? hi rfl)
  | get v | set v | bump _ v => cases v <;> exact hfault
  | push l =>
    cases l with
    | double => exact hfault.trans isSome_numberConstant?
    | string => exact hfault.trans isSome_stringConstant?
    | _ => exact ⟨fun _ => trivial, fun _ => rfl⟩
  | initProp | initMethod => exact hfault.trans isSome_stringConstant?
  | newObject => exact hfault.trans (by simp [template?, Refers])
  | _ => exact ⟨fun _ => trivial, fun _ => rfl⟩

theorem rejected_of_instrError? (hi : f.FirstBad pc i) (he : f.instrError? pc i = some e) :
    f.Rejected e := by
  cases hj : i.jumpOffset? <;> simp only [instrError?, hj] at he
  · obtain ⟨fault, hfault, rfl⟩ := Option.map_eq_some_iff.1 he
    exact .operand hi hj hfault
  · split at he <;> cases he
    exact .jump hi hj

theorem instrErrors_eq_none_iff :
    f.code.toList.zipIdx.findSome? (fun (i, pc) => f.instrError? pc i) = none ↔ f.Resolves := by
  simp only [List.findSome?_eq_none_iff, Prod.forall, List.mem_zipIdx_iff_getElem?,
    Array.getElem?_toList]
  exact ⟨fun h pc i hi => (instrError?_eq_none_iff hi).1 (h i pc hi),
    fun h i pc hi => (instrError?_eq_none_iff hi).2 (h pc i hi)⟩

/-- The search over the instructions stops at the first bad one. -/
theorem rejected_of_instrErrors
    (he : f.code.toList.zipIdx.findSome? (fun (i, pc) => f.instrError? pc i) = some e) :
    f.Rejected e := by
  obtain ⟨before, ⟨i, pc⟩, after, hcode, herror, hbefore⟩ := List.findSome?_eq_some_iff.1 he
  have hget (q : Nat) : (before ++ (i, pc) :: after)[q]? = f.code[q]?.map fun j => (j, q) := by
    rw [← hcode, List.getElem?_zipIdx, Array.getElem?_toList, Nat.zero_add]
  have hpc := hget before.length
  rw [List.getElem?_append_right (Nat.le_refl _), Nat.sub_self] at hpc
  obtain ⟨j, hi, hj⟩ := Option.map_eq_some_iff.1 hpc.symm
  cases hj
  refine rejected_of_instrError? ⟨hi, fun hrefers => ?_, fun q hq j hj => ?_⟩ herror
  · rw [← instrError?_eq_none_iff hi] at hrefers
    cases hrefers.symm.trans herror
  · have hq' := hget q
    rw [List.getElem?_append_left hq, hj] at hq'
    exact (instrError?_eq_none_iff hj).1 (hbefore (j, q) (List.mem_of_getElem? hq'))

theorem mem_properties {c : Nat} : c ∈ f.templates.toList.flatMap (·.properties.toList) ↔
    ∃ t ∈ f.templates, c ∈ t.properties := by
  simp

theorem templateError?_eq_none_iff : f.templateError? = none ↔ f.NamesTemplates := by
  simp only [templateError?, List.findSome?_eq_none_iff, check_eq_none_iff, mem_properties,
    isSome_stringConstant?]
  exact ⟨fun h t ht c hc => h c ⟨t, ht, hc⟩, fun h c ⟨t, ht, hc⟩ => h t ht c hc⟩

theorem validate_eq_ok_iff : f.validate = .ok () ↔ f.Resolves ∧ f.NamesTemplates := by
  rw [← instrErrors_eq_none_iff, ← templateError?_eq_none_iff, ← Option.or_eq_none_iff, ← error?,
    validate]
  cases f.error? <;> simp

theorem lands_iff {offset : Int32} (hsize : f.code.size ≤ 0x7fffffff80000000)
    (hpc : pc < f.code.size) :
    f.Lands pc offset ↔ 0 ≤ pc + offset.toInt ∧ pc + offset.toInt < f.code.size := by
  rw [Lands, jumpTarget?_eq (by omega)]
  split <;> simp <;> omega

/-- Validation passes exactly the functions whose operands all refer to something, and otherwise
reports the first bad instruction, or a template where there is none. In a function that fits in
memory a jump leads to the sum of its position and its offset. -/
theorem validate_exact (f : Function) :
    (f.validate = .ok () ↔ f.Resolves ∧ f.NamesTemplates) ∧
    (∀ e, f.validate = .error e → f.Rejected e) ∧
    (f.code.size ≤ 0x7fffffff80000000 → ∀ (pc : Nat) (offset : Int32), pc < f.code.size →
      (f.Lands pc offset ↔ 0 ≤ pc + offset.toInt ∧ pc + offset.toInt < f.code.size)) := by
  refine ⟨validate_eq_ok_iff, fun e he => ?_, fun hsize pc offset => lands_iff hsize⟩
  unfold validate at he
  split at he <;> cases he
  next herror =>
  rcases Option.or_eq_some_iff.1 herror with hinstr | ⟨hinstr, htemplate⟩
  · exact rejected_of_instrErrors hinstr
  · obtain ⟨c, hc, hc'⟩ := List.exists_of_findSome?_eq_some htemplate
    obtain ⟨t, ht, hc⟩ := mem_properties.1 hc
    split at hc' <;> cases hc'
    next hname =>
    exact .template (instrErrors_eq_none_iff.1 hinstr) ht hc (mt isSome_stringConstant?.2 hname)

end FastPath.Bytecode.Function
