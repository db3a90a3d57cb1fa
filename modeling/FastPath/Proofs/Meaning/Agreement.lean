import FastPath.Proofs.Meaning.Application

/-!
# Inline operators agree with the generic ones

For a function that applies an operator to arguments and literals, the oracle being right about the
arguments and about the result, a run of the code returns what the generic operator gives.
-/

namespace FastPath

open Bytecode

/-! ### Inputs -/

namespace Heap

variable {h : Heap} {f : Function}

/-- The heap has the strings of the function. -/
def Linked (h : Heap) (f : Function) : Prop :=
  ∀ k text, f.stringConstant? k = some text → (h.findString? text).isSome

theorem grew_internAll (h : Heap) (texts : List String) : h.Grew (h.internAll texts).2 := by
  induction texts generalizing h with
  | nil => exact .refl h
  | cons text texts ih => exact (grew_intern h text).trans (ih _)

theorem isSome_findString?_internAll {texts : List String} {text : String} (ht : text ∈ texts)
    (h : Heap) : ((h.internAll texts).2.findString? text).isSome := by
  induction texts generalizing h with
  | nil => cases ht
  | cons t texts ih =>
    rcases List.mem_cons.1 ht with rfl | ht
    · have hfound := (grew_internAll _ texts).findString? (findString?_intern h text)
      exact Option.isSome_of_eq_some hfound
    · exact ih ht _

/-- Linking a function gives the heap its strings. -/
theorem linked_linkFunction (h : Heap) (f : Function) : (h.linkFunction f).Linked f := by
  intro k text htext
  obtain ⟨constant, hget, hstring⟩ := Option.bind_eq_some_iff.1 htext
  exact isSome_findString?_internAll (List.mem_filterMap.2
    ⟨constant, Array.mem_toList_iff.2 (Array.mem_of_getElem? hget), hstring⟩) h

theorem live_findString? {text : String} {s : StrId} (hs : h.findString? text = some s) :
    h.Live (.string s) := by
  have := live_intern h text
  rwa [intern_of_findString? hs] at this

theorem exists_of_bitOp {op : BitOp} {a b r : Value} (hr : (h.bitOp op a b).toOption = some r) :
    ∃ i j, r = op.apply i j := by
  unfold Heap.bitOp at hr
  cases ha : h.toInt32 a with
  | error e =>
    rw [ha] at hr
    cases hr
  | ok i =>
    cases hb : h.toInt32 b with
    | error e =>
      rw [ha, hb] at hr
      cases hr
    | ok j =>
      rw [ha, hb] at hr
      cases hr
      exact ⟨i, j, rfl⟩

end Heap

namespace Bytecode.Function.Applies

variable {f : Function} {i : Instr} {xs : List Input} {stub : Stub} {h : Heap} {args : List Value}

/-- Every input has a value. -/
theorem exists_value {x : Input} (hf : f.Applies i xs stub) (hv : f.validate = .ok ())
    (hlinked : h.Linked f) (hargs : ∀ v ∈ args, h.Live v) (hx : x ∈ xs) :
    ∃ v, x.value? f h args = some v ∧ h.Live v := by
  obtain ⟨pc, hpc⟩ := List.getElem?_of_mem hx
  cases x with
  | arg n =>
    refine ⟨_, rfl, ?_⟩
    cases hn : args[n.toNat]? with
    | none => trivial
    | some v => exact hargs v (List.mem_of_getElem? hn)
  | literal l =>
    have hop := Function.operandFault?_of_validate hv (hf.instr_input hpc) rfl
    cases l with
    | double k =>
      obtain ⟨d, hd⟩ : ∃ d, f.numberConstant? k.toNat = some d := by
        by_contra hnone
        simp [Input.instr, Function.operandFault?, Option.eq_none_iff_forall_ne_some.2
          fun d hd => hnone ⟨d, hd⟩] at hop
      exact ⟨.double d, by simp [Input.value?, Function.literal?, hd], trivial⟩
    | string k =>
      obtain ⟨text, htext⟩ : ∃ text, f.stringConstant? k.toNat = some text := by
        by_contra hnone
        simp [Input.instr, Function.operandFault?, Function.nameFault?,
          Option.eq_none_iff_forall_ne_some.2 fun d hd => hnone ⟨d, hd⟩] at hop
      obtain ⟨s, hs⟩ := Option.isSome_iff_exists.1 (hlinked _ _ htext)
      exact ⟨.string s, by simp [Input.value?, Function.literal?, htext, hs],
        Heap.live_findString? hs⟩
    | _ => exact ⟨_, rfl, trivial⟩

end Bytecode.Function.Applies

/-! ### Bitwise operators -/

/-- A bitwise operator with its operands. -/
inductive BitExpr where
  | binary (op : BitOp) (x y : Input)
  | not (x : Input)
deriving DecidableEq, Repr

namespace BitExpr

/-- The code that pushes the operands, applies the operator and returns. -/
def code : BitExpr → Array Instr
  | binary op x y => #[x.instr, y.instr, .bit op, .ret]
  | not x => #[x.instr, .bitNot, .ret]

/-- The function pushes the operands, applies the operator and returns; it keeps nothing, so it has
no locals. -/
structure Computes (e : BitExpr) (f : Function) : Prop where
  code : f.code = e.code
  localCount : f.localCount = 0

/-- The position of the operator. -/
def pc : BitExpr → Nat
  | binary .. => 2
  | not _ => 1

/-- What the generic operator gives for the operands. -/
def eval? (f : Function) (h : Heap) (args : List Value) : BitExpr → Option Value
  | binary op x y => do (h.bitOp op (← x.value? f h args) (← y.value? f h args)).toOption
  | not x => do (h.bitNot (← x.value? f h args)).toOption

end BitExpr

namespace Bytecode.Function.Applies

variable {f : Function} {i : Instr} {xs : List Input} {stub : Stub} {h : Heap}
  {args vs : List Value}
  {o : Oracle} {n m : Nat} {r : Value}

/-- A bitwise operator that gives a value. -/
theorem returns (hf : f.Applies i xs stub) (hoister : Hoister) (hr : CompileM.Realizes i stub n m)
    (hv : f.validate = .ok ()) (hparams : f.paramCount < 2 ^ 16) (hlocals : f.localCount = 0)
    (hxs : xs.length ≤ 2) (hn : n ≤ 38) (hm : m ≤ 2)
    (hvs : f.Inputs h args xs vs) (hfits : o.Fits f args)
    (hvalue : stub.apply vs h = .ok r h) (hpushed : (o.pushed xs.length).mightBe r.tag) :
    ∃ compiled, compile f h o hoister .standard = .ok compiled ∧
      ∀ limit, 2 ^ 24 ≤ limit →
        let result := (LiveCode.ofCode compiled.code).run f h args limit false
        (∃ v, result.outcome = .ok (.ret v) ∧ v.same r) ∧ result.heap = h := by
  have hbound : spent ((xs.length + 2) * max n 7) ((xs.length + 2) * m)
    (f.paramCount + f.localCount) ≤
      spent 152 8 (2 ^ 17) := by
    have hn' : (xs.length + 2) * max n 7 ≤ 4 * 38 := Nat.mul_le_mul (by omega) (by omega)
    have hm' : (xs.length + 2) * m ≤ 4 * 2 := Nat.mul_le_mul (by omega) hm
    refine Nat.le_trans (spent_mono hn' hm') ?_
    simp only [spent]
    omega
  have htold : Foretold o stub h vs := by
    intro r' h' hrun
    rw [hvalue] at hrun
    cases hrun
    rwa [← hvs.length_eq]
  obtain ⟨compiled, hcompiled, hrun⟩ := hf.run hoister .standard hr rfl hv hparams.le hlocals
    (Nat.lt_of_le_of_lt hbound (by decide)) hvs hfits htold
  refine ⟨compiled, hcompiled, fun limit hlimit => ?_⟩
  rcases hrun limit (Nat.le_trans hbound (Nat.le_trans (by decide) hlimit)) with
    ⟨r', v, hok, houtcome, hv⟩ | ⟨e, out, herror, -⟩
  · rw [hvalue] at hok
    injection hok with hr hheap
    exact ⟨⟨v, houtcome, hr ▸ hv⟩, hheap.symm⟩
  · rw [hvalue] at herror
    cases herror

end Bytecode.Function.Applies

namespace BitExpr

variable {f : Function} {h : Heap} {args : List Value} {o : Oracle} {hoister : Hoister}

/-- `x | "12"`. -/
def orText : BitExpr := binary .or (.arg 0) (.literal (.string 0))

/-- The function that evaluates it. -/
def orTextFunction : Function :=
  { Function.empty none 1 0 with
    code := orText.code
    constants := (Pool.empty.add (.string "12")).2 }

/-- An oracle that knows the types of the argument and of the result, and has results checked. -/
def orTextOracle : Oracle where
  pushed _ := .ofKnown .int32
  var _ := .ofKnown .double
  monitored _ := true

theorem stringConstant?_orTextFunction : orTextFunction.stringConstant? 0 = some "12" := by
  have hnone : Pool.empty.find? (.string "12") = none := by
    simp [Pool.find?, Pool.empty]
  have hget : (Pool.empty.add (.string "12")).2.get? 0 = some (.string "12") := by
    rw [Pool.add, hnone]
    rfl
  exact congrArg (Option.bind · Constant.string?) hget

end BitExpr

end FastPath
