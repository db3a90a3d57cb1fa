import FastPath.Proofs.Generic.Safety

/-!
# Histories of a heap

A program acts on the heap by allocating, interning, defining properties and applying
generic operations, and hands in nothing but values that it holds, whose handles are live.
`Heap.Action` is the set of these actions, `Heap.Reachable` the heaps that they can make from
the empty one, with failed actions among them: what an action did before it failed stays
done.
-/

namespace FastPath

namespace Heap

/-- What a program can ask of the heap. -/
inductive Action where
  | newPlain
  | newKeyed (keys : List StrId)
  | newArrayLiteral (count : Nat)
  | newArray (values : Array Value) (capacity : Nat)
  | newTypedArray (cls : ObjectClass) (length : Nat)
  | intern (text : String)
  | link (f : Bytecode.Function)
  | defineNamed (o : ObjId) (key : StrId) (v : Value)
  | ensureCapacity (o : ObjId) (capacity : Nat)
  | setProtoElement (i : Nat) (v : Value)
  | add (a b : Value)
  | sub (a b : Value)
  | pos (v : Value)
  | bitOp (op : BitOp) (a b : Value)
  | bitNot (v : Value)
  | not (v : Value)
  | compare (op : CompareOp) (a b : Value)
  | propertyKey (v : Value)
  | getElement (base key : Value)
  | setElement (base key v : Value)
  | initProperty (target : Value) (name : StrId) (v : Value)
  | initElement (target key v : Value) (isLast : Bool)

/-- What an action gives back. -/
inductive Answer where
  | done
  | value (v : Value)
  | truth (b : Bool)
  | key (k : PropertyKey)

/-- The handles in an answer are live. -/
def Answer.Live (h : Heap) : Answer → Prop
  | value v => h.Live v
  | key k => k.Live h
  | done | truth _ => True

namespace Action

/-- The values handed in are live, and only the storage of an array is grown. -/
def Allowed (h : Heap) : Action → Prop
  | newKeyed keys => ∀ k ∈ keys, h.Live (.string k)
  | newArray values _ => ∀ v ∈ values, h.Live v
  | defineNamed o key v => h.Live (.object o) ∧ h.Live (.string key) ∧ h.Live v
  | ensureCapacity o _ => ∃ object, h.object o = .ok object ∧ object.cls = .array
  | setProtoElement _ v | pos v | bitNot v | not v | propertyKey v => h.Live v
  | add a b | sub a b | bitOp _ a b | compare _ a b | getElement a b => h.Live a ∧ h.Live b
  | setElement a b v | initElement a b v _ => h.Live a ∧ h.Live b ∧ h.Live v
  | initProperty a name v => h.Live a ∧ h.Live (.string name) ∧ h.Live v
  | newPlain | newArrayLiteral _ | newTypedArray _ _ | intern _ | link _ => True

/-- A new object as an answer. -/
def allocated : ObjId × Heap → EStateM.Result OpError Heap Answer
  | (o, h) => .ok (.value (.object o)) h

/-- A new object, unless the allocation is refused. -/
def allocated? (h : Heap) : Except OpError (ObjId × Heap) → EStateM.Result OpError Heap Answer
  | .ok r => allocated r
  | .error e => .error e h

/-- Carry out an action. -/
def run : Action → HeapM Answer
  | newPlain => fun h => allocated h.newPlain
  | newKeyed keys => fun h => allocated (h.newKeyed keys)
  | newArrayLiteral count => fun h => allocated? h (h.newArrayLiteral count)
  | newArray values capacity => fun h => allocated (h.newArray values capacity)
  | newTypedArray cls length => fun h => allocated? h (h.newTypedArray cls length)
  | intern text => return .value (.string (← HeapM.intern text))
  | link f => fun h => .ok .done (h.linkFunction f)
  | defineNamed o key v => do HeapM.update (·.defineNamed o key v); return .done
  | ensureCapacity o capacity => do HeapM.update (·.ensureCapacity o capacity); return .done
  | setProtoElement i v => fun h => .ok .done (h.setProtoElement i v)
  | add a b => return .value (← genericAdd a b)
  | sub a b => return .value (← HeapM.look (·.sub a b))
  | pos v => return .value (← HeapM.look (·.pos v))
  | bitOp op a b => return .value (← HeapM.look (·.bitOp op a b))
  | bitNot v => return .value (← HeapM.look (·.bitNot v))
  | not v => return .truth (← HeapM.look (·.not v))
  | compare op a b => return .truth (← genericCompare op a b)
  | propertyKey v => return .key (← toPropertyKey v)
  | getElement base key => return .value (← FastPath.getElement base key)
  | setElement base key v => do FastPath.setElement base key v; return .done
  | initProperty target name v => do FastPath.initProperty target name v; return .done
  | initElement target key v isLast => do
    FastPath.initElement target key v isLast
    return .done

/-- The heap after an action, whether or not it failed. -/
def after (x : Action) (h : Heap) : Heap :=
  match x.run h with
  | .ok _ h' => h'
  | .error _ h' => h'

end Action

/-- The heaps that a program can make. -/
inductive Reachable : Heap → Prop where
  | new : Reachable Heap.new
  | act {h : Heap} (x : Action) (hh : Reachable h) (hx : x.Allowed h) : Reachable (x.after h)

/-! ### One action -/

variable {h : Heap} {o : Object}

open HeapM

theorem allocated_safe (hw : h.WellFormed) (ho : o.WellFormed h) :
    Safe (fun h' => Action.allocated (h'.alloc o)) h fun r h' => r.Live h' :=
  ⟨alloc_keeps hw ho, live_alloc h o⟩

/-- A new object with names: the shapes grow first. -/
theorem newKeyed_safe (hw : h.WellFormed) {keys : List StrId}
    (hkeys : ∀ k ∈ keys, h.Live (.string k)) :
    Safe (fun h' => Action.allocated (h'.newKeyed keys)) h fun r h' => r.Live h' := by
  obtain ⟨he, hw₁⟩ := setShapes_keeps hw (h.shapes.shapeFor keys).2 fun s ks hs =>
    Shapes.get?_extend hs
  have hget := Shapes.get?_shapeFor h.shapes keys
  obtain ⟨he₂, hw₂⟩ := alloc_keeps hw₁ (Object.plain_wellFormed (Shapes.get?_lt hget) fun k hk => by
    rw [Shapes.keys_of_get? hget, List.mem_toArray] at hk
    exact (hkeys k hk).mono he)
  exact ⟨⟨he.trans he₂, hw₂⟩, live_alloc _ _⟩

theorem newTypedArray_safe (hw : h.WellFormed) (cls : ObjectClass) (length : Nat) :
    Safe (fun h' => Action.allocated? h' (h'.newTypedArray cls length)) h
      fun r h' => r.Live h' := by
  cases cls with
  | int32Array =>
    exact allocated_safe hw (Object.typedArray_wellFormed hw (v := .int32 0) rfl trivial length)
  | float64Array =>
    exact allocated_safe hw
      (Object.typedArray_wellFormed hw (v := .double .zero) rfl trivial length)
  | _ => exact ⟨.refl hw, .inl rfl⟩

theorem newArrayLiteral_safe (hw : h.WellFormed) (count : Nat) :
    Safe (fun h' => Action.allocated? h' (h'.newArrayLiteral count)) h
      fun r h' => r.Live h' := by
  by_cases hmax : maxDenseCapacity < count
  · simp only [Safe, newArrayLiteral, hmax, if_true]
    exact ⟨.refl hw, .inr rfl⟩
  · simp only [newArrayLiteral, hmax, if_false]
    exact allocated_safe hw (Object.arrayLiteral_wellFormed hw count)

/-- Growing an array keeps the heap well-formed. -/
theorem ensureCapacity_safe (hw : h.WellFormed) {o : ObjId} {object : Object}
    (hobject : h.object o = .ok object) (hcls : object.cls = .array) (capacity : Nat) :
    (update (·.ensureCapacity o capacity)).Safe h fun _ _ => True := by
  refine safe_update hw ?_
  unfold ensureCapacity
  split
  · exact .inr ⟨_, rfl, .inr rfl⟩
  · refine updateObject_keeps hw hobject ?_
    cases hgrow : object.grow capacity with
    | ok o' => exact .inl ⟨o', rfl, ((hw.object hobject).grow hcls hgrow).1⟩
    | error e => exact .inr ⟨e, rfl, grow_isRaised hgrow⟩

/-- The answer of an action that gives back what another computes. -/
theorem safe_answer {α : Type} {x : HeapM α} {Q : α → Heap → Prop} (hx : x.Safe h Q)
    {g : α → Answer} (hg : ∀ a h', Q a h' → (g a).Live h') :
    Safe (do let a ← x; return g a) h fun r h' => r.Live h' :=
  safe_bind hx fun a h' _ hw' hq => safe_pure hw' (hg a h' hq)

/-- **An allowed action keeps the heap well formed** and gives live values or an error that a
program can raise. -/
theorem Action.run_safe (hw : h.WellFormed) {x : Action} (hx : x.Allowed h) :
    x.run.Safe h fun r h' => r.Live h' := by
  have hlook : ∀ {f : Heap → Except OpError Value}, (∃ v, f h = .ok v ∧ h.Live v) →
      Safe (do let v ← look f; return Answer.value v) h fun r h' => r.Live h' := fun hf =>
    safe_answer (safe_look hw hf) fun _ _ hv => hv
  cases x with
  | newPlain =>
    exact allocated_safe hw
      (hw.slotCount_root ▸ Object.plain_wellFormed (Shapes.get?_lt hw.root) hw.names_root)
  | newKeyed keys => exact newKeyed_safe hw hx
  | newArrayLiteral count => exact newArrayLiteral_safe hw count
  | newArray values capacity => exact allocated_safe hw (Object.array_wellFormed hw hx capacity)
  | newTypedArray cls length => exact newTypedArray_safe hw cls length
  | intern text => exact safe_answer (safe_intern hw text) fun _ _ hs => hs
  | link f => exact ⟨internAll_keeps hw _, trivial⟩
  | defineNamed o key v =>
    exact safe_answer (safe_update hw (.inl (defineNamed_keeps hw hx.1 hx.2.1 hx.2.2)))
      fun _ _ _ => trivial
  | ensureCapacity o capacity =>
    obtain ⟨object, hobject, hcls⟩ := hx
    exact safe_answer (ensureCapacity_safe hw hobject hcls capacity) fun _ _ _ => trivial
  | setProtoElement i v => exact ⟨setProtoElement_keeps hw i hx, trivial⟩
  | add a b => exact safe_answer (genericAdd_safe hw hx.1 hx.2) fun _ _ hv => hv
  | sub a b => exact hlook (sub_ok hw hx.1 hx.2)
  | pos v => exact hlook (pos_ok hw hx)
  | bitOp op a b => exact hlook (bitOp_ok hw.readable op hx.1 hx.2)
  | bitNot v => exact hlook (bitNot_ok hw.readable hx)
  | not v =>
    obtain ⟨t, ht⟩ := not_ok hx
    exact safe_answer (safe_look hw (Q := fun _ _ => True) ⟨t, ht, trivial⟩)
      fun _ _ _ => trivial
  | compare op a b =>
    exact safe_answer (genericCompare_safe hw op hx.1 hx.2) fun _ _ _ => trivial
  | propertyKey v => exact safe_answer (toPropertyKey_safe hw hx) fun _ _ hk => hk
  | getElement base key => exact safe_answer (getElement_safe hw hx.1 hx.2) fun _ _ hv => hv
  | setElement base key v =>
    exact safe_answer (setElement_safe hw hx.1 hx.2.1 hx.2.2) fun _ _ _ => trivial
  | initProperty target name v =>
    exact safe_answer (initProperty_safe hw hx.1 hx.2.1 hx.2.2) fun _ _ _ => trivial
  | initElement target key v isLast =>
    exact safe_answer (initElement_safe hw hx.1 hx.2.1 hx.2.2 isLast) fun _ _ _ => trivial

/-! ### Whole histories -/

/-- Every reachable heap is well formed. -/
theorem Reachable.wellFormed (hh : Reachable h) : h.WellFormed := by
  induction hh with
  | new => exact new_wellFormed
  | @act h x _ hx ih =>
    have hs := Action.run_safe ih hx
    unfold Safe at hs
    unfold Action.after
    cases hr : x.run h with
    | ok r h' | error e h' =>
      rw [hr] at hs
      exact hs.1.2

/-- **The heap stays well formed and internal errors are unreachable.** Whatever a program
has done, an action on live values ends in a well-formed heap, with an answer whose handles
are live or with a type or range error. -/
theorem reachable_sound (hh : Reachable h) : h.WellFormed ∧
    ∀ x : Action, x.Allowed h → (x.after h).WellFormed ∧
      match x.run h with
      | .ok r h' => r.Live h'
      | .error e _ => e.kind = .typeError ∨ e.kind = .rangeError := by
  refine ⟨hh.wellFormed, fun x hx => ⟨(hh.act x hx).wellFormed, ?_⟩⟩
  have hs := Action.run_safe hh.wellFormed hx
  unfold Safe at hs
  cases hr : x.run h with
  | ok r h' =>
      rw [hr] at hs
      exact hs.2
  | error e h' =>
      rw [hr] at hs
      exact hs.2

/-- A heap with an array that holds itself, past a gap. -/
def cyclicArray : Heap :=
  Action.after (.setElement (.object ⟨0⟩) (.int32 3) (.object ⟨0⟩))
    (Action.after (.newArray #[.int32 1] 2) Heap.new)

theorem reachable_sound_cyclicArray : Reachable cyclicArray ∧
    (Action.add (.object ⟨0⟩) (.int32 1)).Allowed cyclicArray ∧
    ((Action.add (.object ⟨0⟩) (.int32 1)).after cyclicArray).WellFormed :=
  have hnew : Reachable (Action.after (.newArray #[.int32 1] 2) Heap.new) :=
    .act _ .new fun v hv => by obtain rfl := Array.mem_singleton.1 hv; trivial
  have hcyclic : Reachable cyclicArray := .act _ hnew ⟨Nat.zero_lt_one, trivial, Nat.zero_lt_one⟩
  have hallowed : (Action.add (.object ⟨0⟩) (.int32 1)).Allowed cyclicArray :=
    ⟨show 0 < cyclicArray.objects.size by decide +kernel, trivial⟩
  ⟨hcyclic, hallowed, ((reachable_sound hcyclic).2 _ hallowed).1⟩

end Heap

end FastPath
