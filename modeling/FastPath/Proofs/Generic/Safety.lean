import FastPath.Proofs.Heap.WellFormed
import FastPath.Generic.Arith
import FastPath.Generic.Compare
import FastPath.Generic.Element

/-!
# Generic operations on live values

On a well-formed heap a generic operation can only look at handles that name something, so
none of the errors that report a word which is no value can occur: an operation on live
values gives live values, or an error that a program can raise. `HeapM.Safe` says this of an
action, together with the fact that the heap stays well formed whether or not it fails.

The conversions come first: text, numbers and truth values of a live value always exist
(`Heap.textTo_ok` and what follows from it), which leaves three kinds of steps, interning,
looking and updating one object.
-/

namespace FastPath

/-- An error that a program can raise; the others report a word that is no value. -/
def OpError.IsRaised (e : OpError) : Prop := e.kind = .typeError ∨ e.kind = .rangeError

/-- The name in a key is live. -/
def PropertyKey.Live (h : Heap) : PropertyKey → Prop
  | index _ => True
  | name s => h.Live (.string s)

variable {h h' : Heap} {v a b : Value} {c : Cell}

namespace HeapM

variable {α β : Type} {x : HeapM α} {Q : α → Heap → Prop} {R : β → Heap → Prop}

theorem look_run (f : Heap → Except OpError α) (h : Heap) : look f h =
    match f h with
    | .ok a => .ok a h
    | .error e => .error e h := by
  change (liftM (f h) : HeapM α) h = _
  cases f h <;> rfl

theorem look_ok {f : Heap → Except OpError α} {a : α} (hf : f h = .ok a) : look f h = .ok a h := by
  rw [look_run, hf]

theorem bind_ok {k : α → HeapM β} {a : α} (hx : x h = .ok a h') : (x >>= k) h = k a h' := by
  change EStateM.bind x k h = _
  rw [EStateM.bind, hx]

/-- Run from `h`, the action keeps the heap well formed, and gives a result that satisfies
`Q` or an error that a program can raise. -/
def Safe (x : HeapM α) (h : Heap) (Q : α → Heap → Prop) : Prop :=
  match x h with
  | .ok a h' => h.Keeps h' ∧ Q a h'
  | .error e h' => h.Keeps h' ∧ e.IsRaised

theorem safe_pure (hw : h.WellFormed) {a : α} (hq : Q a h) : Safe (pure a) h Q :=
  ⟨.refl hw, hq⟩

theorem safe_throw (hw : h.WellFormed) {e : OpError} (he : e.IsRaised) :
    Safe (throw e : HeapM α) h Q :=
  ⟨.refl hw, he⟩

/-- One operation after the other. -/
theorem safe_bind {f : α → HeapM β} (hx : x.Safe h Q)
    (hf : ∀ a h', h.Extends h' → h'.WellFormed → Q a h' → (f a).Safe h' R) :
    (x >>= f).Safe h R := by
  change match EStateM.bind x f h with
    | .ok a h' => h.Keeps h' ∧ R a h'
    | .error e h' => h.Keeps h' ∧ e.IsRaised
  unfold Safe at hx
  unfold EStateM.bind
  cases hxh : x h with
  | error e h₁ =>
    rw [hxh] at hx
    exact hx
  | ok a h₁ =>
    rw [hxh] at hx
    obtain ⟨⟨he, hw⟩, hq⟩ := hx
    have hfa := hf a h₁ he hw hq
    unfold Safe at hfa
    dsimp only
    cases hfh : f a h₁ with
    | ok b h₂ | error e h₂ =>
      rw [hfh] at hfa
      exact ⟨⟨he.trans hfa.1.1, hfa.1.2⟩, hfa.2⟩

theorem safe_look (hw : h.WellFormed) {f : Heap → Except OpError α}
    (hf : ∃ a, f h = .ok a ∧ Q a h) : (look f).Safe h Q := by
  obtain ⟨a, hfa, hq⟩ := hf
  unfold Safe
  rw [look_ok hfa]
  exact ⟨.refl hw, hq⟩

/-- What comes after a look that succeeds starts from the same heap. -/
theorem safe_look_bind (hw : h.WellFormed) {f : Heap → Except OpError α} {g : α → HeapM β} {a : α}
    (hf : f h = .ok a) (hg : (g a).Safe h R) : (look f >>= g).Safe h R := by
  refine safe_bind (safe_look hw (Q := fun b h' => b = a ∧ h' = h) ⟨a, hf, rfl, rfl⟩) ?_
  rintro _ _ - - ⟨rfl, rfl⟩
  exact hg

theorem safe_intern (hw : h.WellFormed) (s : String) :
    (intern s).Safe h fun i h' => h'.Live (.string i) :=
  ⟨Heap.intern_keeps hw s, Heap.live_intern h s⟩

/-- An update that keeps the heap well formed, or refuses with an error of the program. -/
theorem safe_update (hw : h.WellFormed) {f : Heap → Except OpError Heap}
    (hf : (∃ h', f h = .ok h' ∧ h.Keeps h') ∨ ∃ e, f h = .error e ∧ e.IsRaised) :
    (update f).Safe h fun _ _ => True := by
  unfold Safe update
  rcases hf with ⟨h', hf, hk⟩ | ⟨e, hf, he⟩
  · rw [hf]
    exact ⟨hk, trivial⟩
  · rw [hf]
    exact ⟨.refl hw, he⟩

end HeapM

namespace Heap

/-! ### Reading cells -/

theorem Encodes.decode (hc : h.Encodes c) : ∃ v, c.decode = .ok v ∧ h.Live v := by
  obtain ⟨v, rfl, hv⟩ := hc
  exact ⟨v, Cell.decode_toCell v, hv⟩

/-- What an array read sees is a value. -/
theorem WellFormed.arrayElement? (hw : h.WellFormed) {o : Object} (ho : o.WellFormed h) {i : Nat}
    (hc : h.arrayElement? o i = some c) : h.Encodes c := by
  rcases Option.or_eq_some_iff.1 hc with hown | ⟨-, hproto⟩
  · unfold Object.element? at hown
    split at hown
    · obtain ⟨hget, hhole⟩ := Option.filter_eq_some_iff.1 hown
      exact ho.elements i c ‹_› hget (by simpa using hhole)
    · cases hown
  · exact hw.proto i c hproto

/-- What an array read sees is a value with live handles. -/
def Readable (h : Heap) : Prop := ∀ (o : ObjId) (object : Object) (i : Nat) (c : Cell),
  h.object o = .ok object → h.arrayElement? object i = some c → ∃ v, c.decode = .ok v ∧ h.Live v

theorem WellFormed.readable (hw : h.WellFormed) : h.Readable :=
  fun _ _ _ _ ho hc => (hw.arrayElement? (hw.object ho) hc).decode

end Heap

/-- The elements of a typed array are values. -/
theorem Object.WellFormed.typed_element {o : Object} (ho : o.WellFormed h) {t : Tag}
    (ht : o.cls.elementTag? = some t) {i : Nat} (hc : o.elements[i]? = some c) : h.Encodes c := by
  obtain ⟨hsize, -, htags⟩ := ho.typed t ht
  have hi : i < o.initializedLength := hsize ▸ (Array.getElem?_eq_some_iff.1 hc).1
  have htag := htags c (Array.mem_of_getElem? hc)
  refine ho.elements i c hi hc ?_
  rw [Cell.isHole, htag]
  cases hcls : o.cls <;> rw [hcls] at ht <;> cases ht <;> rfl

theorem valueOf?_ok {oc : Option Cell} (hc : ∀ c, oc = some c → h.Encodes c) :
    ∃ v, valueOf? oc = .ok v ∧ h.Live v := by
  cases oc with
  | none => exact ⟨.undefined, rfl, trivial⟩
  | some c => exact (hc c rfl).decode

namespace Heap

/-! ### Conversions -/

/-- The second heap has all that texts are made of: strings and the elements of arrays. -/
structure SameTexts (h h' : Heap) : Prop where
  string : ∀ s, h.Live (.string s) → h'.string s = h.string s
  object : ∀ o object, h.object o = .ok object → ∃ object', h'.object o = .ok object' ∧
    object'.cls = object.cls ∧ (object.cls ≠ .plain → object' = object)
  proto : h'.protoElements = h.protoElements

theorem SameTexts.refl (h : Heap) : h.SameTexts h :=
  ⟨fun _ _ => rfl, fun _ object ho => ⟨object, ho, rfl, fun _ => rfl⟩, rfl⟩

variable {α β : Type} {f : α → Except OpError β}

theorem bind_ok {x y : Except OpError α} (hx : ∃ a, x = .ok a ∧ y = .ok a)
    (hf : ∀ a, ∃ b, f a = .ok b) : ∃ b, x >>= f = .ok b ∧ y >>= f = .ok b := by
  obtain ⟨a, rfl, rfl⟩ := hx
  exact (hf a).imp fun _ hb => ⟨hb, hb⟩

theorem mapM_ok {g : α → Except OpError β} {l : List α}
    (hf : ∀ a ∈ l, ∃ b, f a = .ok b ∧ g a = .ok b) :
    ∃ bs, l.mapM f = .ok bs ∧ l.mapM g = .ok bs := by
  induction l with
  | nil => exact ⟨[], rfl, rfl⟩
  | cons a l ih =>
    obtain ⟨b, hb, hb'⟩ := hf a List.mem_cons_self
    obtain ⟨bs, hbs, hbs'⟩ := ih fun a ha => hf a (List.mem_cons_of_mem _ ha)
    exact ⟨b :: bs, by rw [List.mapM_cons, hb, hbs]; rfl, by rw [List.mapM_cons, hb', hbs']; rfl⟩

/-- A live value has a text, however deep its arrays are joined, and keeps it. -/
theorem textTo_ok (hr : h.Readable) (hs : h.SameTexts h') (depth : Nat) (hv : h.Live v) :
    ∃ text, h.textTo depth v = .ok text ∧ h'.textTo depth v = .ok text := by
  have hstring : ∀ s, h.Live (.string s) → ∃ text, h.string s = .ok text ∧ h'.string s = .ok text :=
    fun s hs' => (string_ok hs').imp fun text ht => ⟨ht, (hs.string s hs').trans ht⟩
  induction depth generalizing v with
  | zero =>
    cases v with
    | string s => exact hstring s hv
    | object o =>
      obtain ⟨object, hobject⟩ := exists_object hv
      obtain ⟨object', hobject', hcls, -⟩ := hs.object o object hobject
      simp only [textTo, hobject, hobject', bind, Except.bind, hcls]
      exact ⟨_, rfl, rfl⟩
    | _ => exact ⟨_, rfl, rfl⟩
  | succ depth ih =>
    cases v with
    | string s => exact hstring s hv
    | object o =>
      obtain ⟨object, hobject⟩ := exists_object hv
      obtain ⟨object', hobject', hcls, hsame⟩ := hs.object o object hobject
      by_cases hplain : object.cls = .plain
      · simp only [textTo, hobject, hobject', bind, Except.bind, hcls, hplain, if_true]
        exact ⟨_, rfl, rfl⟩
      · obtain rfl := hsame hplain
        simp only [textTo, hobject, hobject', bind, Except.bind, hplain, if_false]
        refine bind_ok (mapM_ok fun i _ => ?_) fun parts => ⟨_, rfl⟩
        -- each element is a value with live handles, or absent
        obtain ⟨w, hdecode, hlive⟩ : ∃ w,
            ((h.arrayElement? object' i).getD .undefined).decode = .ok w ∧ h.Live w := by
          cases hc : h.arrayElement? object' i with
          | none => exact ⟨.undefined, rfl, trivial⟩
          | some c => exact hr o object' i c hobject hc
        have hc' : h'.arrayElement? object' i = h.arrayElement? object' i := by
          simp only [arrayElement?, protoElement?, hs.proto]
        rw [hc', hdecode]
        cases w with
        | undefined | null => exact ⟨_, rfl, rfl⟩
        | _ => exact ih hlive
    | _ => exact ⟨_, rfl, rfl⟩

theorem toText_ok (hr : h.Readable) (hv : h.Live v) : ∃ text, h.toText v = .ok text :=
  (textTo_ok hr (.refl h) textDepth hv).imp fun _ => And.left

theorem toNumber_ok (hr : h.Readable) (hv : h.Live v) : ∃ d, h.toNumber v = .ok d := by
  cases v with
  | string s =>
    obtain ⟨text, ht⟩ := string_ok hv
    exact ⟨_, by rw [toNumber, ht]; rfl⟩
  | object o =>
    obtain ⟨text, ht⟩ := toText_ok hr hv
    exact ⟨_, by rw [toNumber, ht]; rfl⟩
  | _ => exact ⟨_, rfl⟩

theorem toInt32_ok (hr : h.Readable) (hv : h.Live v) : ∃ i, h.toInt32 v = .ok i := by
  obtain ⟨d, hd⟩ := toNumber_ok hr hv
  cases v with
  | int32 i => exact ⟨i, rfl⟩
  | _ => exact ⟨_, by simp only [toInt32, hd]; rfl⟩

theorem toBoolean_ok (hv : h.Live v) : ∃ t, h.toBoolean v = .ok t := by
  cases v with
  | string s =>
    obtain ⟨text, ht⟩ := string_ok hv
    exact ⟨_, by rw [toBoolean, ht]; rfl⟩
  | _ => exact ⟨_, rfl⟩

/-- A number is live. -/
theorem live_number (h : Heap) (d : Double) : h.Live (.number d) := by
  unfold Value.number
  split <;> trivial

end Heap

open Heap HeapM

theorem toPrimitive_safe (hw : h.WellFormed) (hv : h.Live v) :
    (toPrimitive v).Safe h fun w h' => h'.Live w := by
  cases v with
  | object o =>
    obtain ⟨text, ht⟩ := toText_ok hw.readable hv
    refine safe_look_bind hw ht ?_
    exact safe_bind (safe_intern hw text) fun s h₁ _ hw₁ hs => safe_pure hw₁ hs
  | _ => exact safe_pure hw hv

theorem nameKey_safe (hw : h.WellFormed) (hv : h.Live v) :
    (nameKey v).Safe h fun k h' => k.Live h' := by
  obtain ⟨text, ht⟩ := toText_ok hw.readable hv
  refine safe_look_bind hw ht ?_
  exact safe_bind (safe_intern hw text) fun s h₁ _ hw₁ hs => safe_pure hw₁ hs

theorem toPropertyKey_safe (hw : h.WellFormed) (hv : h.Live v) :
    (toPropertyKey v).Safe h fun k h' => k.Live h' := by
  cases v with
  | int32 i | double d =>
    simp only [toPropertyKey]
    split
    · exact safe_pure hw trivial
    · exact nameKey_safe hw hv
  | string s =>
    obtain ⟨text, ht⟩ := string_ok hv
    refine safe_look_bind hw ht ?_
    split
    · exact safe_pure hw trivial
    · exact safe_pure hw hv
  | _ => exact nameKey_safe hw hv

/-! ### Arithmetic and comparison -/

theorem live_arithInt32 (h : Heap) (op : ArithOp) (i j : Int32) : h.Live (arithInt32 op i j) := by
  unfold arithInt32
  split <;> trivial

theorem live_bitOp (h : Heap) (op : BitOp) (i j : Int32) : h.Live (op.apply i j) := by
  cases op with
  | ursh => exact live_number h _
  | _ => trivial

variable {α : Type} {f : Heap → Except OpError α} {object : Object} {e : OpError}

section

variable (hw : h.WellFormed)
include hw

/-- Two conversions that succeed, one after the other. -/
theorem safe_look₂ {β : Type} {g : Heap → Except OpError α} (hf : ∃ x, f h = .ok x)
    (hg : ∃ y, g h = .ok y) {k : α → α → HeapM β} {Q : β → Heap → Prop}
    (hk : ∀ x y, (k x y).Safe h Q) : Safe (do let x ← look f; let y ← look g; k x y) h Q := by
  obtain ⟨x, hx⟩ := hf
  obtain ⟨y, hy⟩ := hg
  exact safe_look_bind hw hx (safe_look_bind hw hy (hk x y))

theorem addPrimitives_safe (ha : h.Live a) (hb : h.Live b) :
    (addPrimitives a b).Safe h fun v h' => h'.Live v := by
  unfold addPrimitives
  split
  · refine safe_look₂ hw (toText_ok hw.readable ha) (toText_ok hw.readable hb) fun s t => ?_
    exact safe_bind (safe_intern hw (s ++ t)) fun i h₁ _ hw₁ hi => safe_pure hw₁ hi
  · exact safe_look₂ hw (toNumber_ok hw.readable ha) (toNumber_ok hw.readable hb) fun x y =>
      safe_pure hw (live_number h _)

/-- Both operands become primitives, the left one first. -/
theorem toPrimitives_safe (ha : h.Live a) (hb : h.Live b) {k : Value → Value → HeapM α}
    {Q : α → Heap → Prop}
    (hk : ∀ a b h', h'.WellFormed → h'.Live a → h'.Live b → (k a b).Safe h' Q) :
    Safe (do let a ← toPrimitive a; let b ← toPrimitive b; k a b) h Q := by
  refine safe_bind (toPrimitive_safe hw ha) fun a₁ h₁ he₁ hw₁ ha₁ => ?_
  refine safe_bind (toPrimitive_safe hw₁ (hb.mono he₁)) fun b₂ h₂ he₂ hw₂ hb₂ => ?_
  exact hk a₁ b₂ h₂ hw₂ (ha₁.mono he₂) hb₂

theorem genericAdd_safe (ha : h.Live a) (hb : h.Live b) :
    (genericAdd a b).Safe h fun v h' => h'.Live v := by
  unfold genericAdd
  split
  · exact safe_pure hw (live_arithInt32 h _ _ _)
  · exact toPrimitives_safe hw ha hb fun a b h' hw' ha' hb' => addPrimitives_safe hw' ha' hb'

theorem sub_ok (ha : h.Live a) (hb : h.Live b) : ∃ v, h.sub a b = .ok v ∧ h.Live v := by
  obtain ⟨x, hx⟩ := toNumber_ok hw.readable ha
  obtain ⟨y, hy⟩ := toNumber_ok hw.readable hb
  unfold Heap.sub
  split
  · exact ⟨_, rfl, live_arithInt32 h _ _ _⟩
  · exact ⟨_, by rw [hx, hy]; rfl, live_number h _⟩

theorem pos_ok (hv : h.Live v) : ∃ w, h.pos v = .ok w ∧ h.Live w := by
  obtain ⟨x, hx⟩ := toNumber_ok hw.readable hv
  unfold Heap.pos
  split
  · exact ⟨v, rfl, hv⟩
  · exact ⟨_, by rw [hx]; rfl, live_number h _⟩

end

theorem bitOp_ok (hr : h.Readable) (op : BitOp) (ha : h.Live a) (hb : h.Live b) :
    ∃ v, h.bitOp op a b = .ok v ∧ h.Live v := by
  obtain ⟨i, hi⟩ := toInt32_ok hr ha
  obtain ⟨j, hj⟩ := toInt32_ok hr hb
  exact ⟨_, by rw [Heap.bitOp, hi, hj]; rfl, live_bitOp h op i j⟩

theorem bitNot_ok (hr : h.Readable) (hv : h.Live v) : ∃ w, h.bitNot v = .ok w ∧ h.Live w := by
  obtain ⟨i, hi⟩ := toInt32_ok hr hv
  exact ⟨.int32 (~~~i), by rw [Heap.bitNot, hi]; rfl, trivial⟩

theorem not_ok (hv : h.Live v) : ∃ t, h.not v = .ok t := by
  obtain ⟨t, ht⟩ := toBoolean_ok hv
  exact ⟨_, by rw [Heap.not, ht]; rfl⟩

theorem live_booleanToInt32 (hv : h.Live v) : h.Live v.booleanToInt32 := by
  cases v with
  | boolean b => trivial
  | _ => exact hv

theorem primitiveEquals_ok (hw : h.WellFormed) (ha : h.Live a) (hb : h.Live b) :
    ∃ t, h.primitiveEquals a b = .ok t := by
  obtain ⟨x, hx⟩ := toNumber_ok hw.readable ha
  obtain ⟨y, hy⟩ := toNumber_ok hw.readable hb
  unfold Heap.primitiveEquals
  split
  · exact ⟨_, rfl⟩
  · exact ⟨_, by rw [hx, hy]; rfl⟩

theorem primitiveCompare_ok (hw : h.WellFormed) (op : RelOp) (ha : h.Live a) (hb : h.Live b) :
    ∃ t, h.primitiveCompare op a b = .ok t := by
  obtain ⟨x, hx⟩ := toNumber_ok hw.readable ha
  obtain ⟨y, hy⟩ := toNumber_ok hw.readable hb
  unfold Heap.primitiveCompare
  split
  · obtain ⟨s, hs⟩ := string_ok ha
    obtain ⟨t, ht⟩ := string_ok hb
    exact ⟨_, by rw [hs, ht]; rfl⟩
  · exact ⟨_, by rw [hx, hy]; rfl⟩

theorem looseEquals_safe (hw : h.WellFormed) (ha : h.Live a) (hb : h.Live b) :
    (looseEquals a b).Safe h fun _ _ => True := by
  unfold looseEquals
  split
  · exact safe_pure hw trivial
  · split
    · exact safe_pure hw trivial
    · refine toPrimitives_safe hw (live_booleanToInt32 ha) (live_booleanToInt32 hb) ?_
      intro a b h' hw' ha' hb'
      obtain ⟨t, ht⟩ := primitiveEquals_ok hw' ha' hb'
      exact safe_look hw' ⟨t, ht, trivial⟩

theorem genericCompare_safe (hw : h.WellFormed) (op : CompareOp) (ha : h.Live a)
    (hb : h.Live b) : (genericCompare op a b).Safe h fun _ _ => True := by
  unfold genericCompare
  split
  · exact safe_pure hw trivial
  · exact safe_bind (looseEquals_safe hw ha hb) fun _ _ _ hw₁ _ => safe_pure hw₁ trivial
  · refine toPrimitives_safe hw ha hb fun a b h' hw' ha' hb' => ?_
    obtain ⟨t, ht⟩ := primitiveCompare_ok hw' _ ha' hb'
    exact safe_look hw' ⟨t, ht, trivial⟩

/-! ### Elements -/

variable {base key : Value} {o : ObjId}

theorem elementKey_safe (hw : h.WellFormed) (hkey : h.Live key) :
    (elementKey base key).Safe h fun k h' => k.Live h' := by
  unfold elementKey
  split
  · exact safe_throw hw (.inl rfl)
  · exact toPropertyKey_safe hw hkey

/-- What a property holds is live. -/
theorem getNamedValue_safe (hw : h.WellFormed) (ho : h.Live (.object o)) (name : StrId) :
    (getNamedValue o name).Safe h fun v h' => h'.Live v := by
  obtain ⟨object, hobject, hwf⟩ := object_ok hw ho
  refine safe_look hw ?_
  have hcell : ∀ c, (h.slotOf? object name).bind (object.slots[·]?) = some c → h.Encodes c := by
    intro c hc
    obtain ⟨slot, -, hslot⟩ := Option.bind_eq_some_iff.1 hc
    exact hwf.slots c (Array.mem_of_getElem? hslot)
  obtain ⟨v, hv, hlive⟩ := valueOf?_ok hcell
  exact ⟨v, by simp only [Heap.getNamed, hobject, bind, Except.bind, pure, Except.pure, hv], hlive⟩

/-- What is read from a string is live. -/
theorem stringElement_safe (hw : h.WellFormed) {s : StrId} (hs : h.Live (.string s))
    (k : PropertyKey) : (stringElement s k).Safe h fun v h' => h'.Live v := by
  obtain ⟨text, ht⟩ := string_ok hs
  refine safe_look_bind hw ht ?_
  cases k with
  | index i =>
    dsimp only
    split
    · exact safe_bind (safe_intern hw _) fun s h₁ _ hw₁ hs => safe_pure hw₁ hs
    · exact safe_pure hw trivial
  | name n =>
    dsimp only
    split
    · exact safe_pure hw (live_number h _)
    · exact safe_pure hw trivial

/-- What is read from an object is live. -/
theorem objectElement_safe (hw : h.WellFormed) (ho : h.Live (.object o)) (k : PropertyKey) :
    (objectElement o k).Safe h fun v h' => h'.Live v := by
  obtain ⟨object, hobject, hwf⟩ := object_ok hw ho
  refine safe_look_bind hw hobject ?_
  have htyped : ∀ (t : Tag) (i : Nat), object.cls.elementTag? = some t →
      Safe (valueOf? object.elements[i]? : HeapM Value) h fun v h' => h'.Live v := by
    intro t i ht
    obtain ⟨v, hv, hlive⟩ := valueOf?_ok fun c hc => hwf.typed_element ht hc
    rw [hv]
    exact safe_pure hw hlive
  cases k with
  | index i =>
    dsimp only
    split
    · exact safe_look hw (valueOf?_ok fun c hc => hw.arrayElement? hwf hc)
    · exact safe_bind (safe_intern hw _) fun name h₂ he₂ hw₂ _ =>
        getNamedValue_safe hw₂ (ho.mono he₂) name
    · rename_i hcls hcls'
      cases hc : object.cls with
      | array => exact absurd hc hcls
      | plain => exact absurd hc hcls'
      | int32Array => exact htyped .int32 i (by rw [hc]; rfl)
      | float64Array => exact htyped .double i (by rw [hc]; rfl)
  | name n =>
    dsimp only
    split
    · exact safe_pure hw (live_number h _)
    · exact getNamedValue_safe hw ho n

theorem getElement_safe (hw : h.WellFormed) (hbase : h.Live base) (hkey : h.Live key) :
    (getElement base key).Safe h fun v h' => h'.Live v := by
  refine safe_bind (elementKey_safe hw hkey) fun k h₁ he₁ hw₁ hk => ?_
  cases base with
  | object o => exact objectElement_safe hw₁ (hbase.mono he₁) k
  | string s => exact stringElement_safe hw₁ (hbase.mono he₁) k
  | _ => exact safe_pure hw₁ trivial

/-- Changing one object of a well-formed heap into a well-formed one. -/
theorem updateObject_keeps (hw : h.WellFormed) (hobject : h.object o = .ok object)
    {f : Object → Except OpError Object}
    (hf : (∃ o', f object = .ok o' ∧ o'.WellFormed h) ∨ ∃ e, f object = .error e ∧ e.IsRaised) :
    (∃ h', h.updateObject o f = .ok h' ∧ h.Keeps h') ∨
      ∃ e, h.updateObject o f = .error e ∧ e.IsRaised := by
  rcases hf with ⟨o', hf, hwf⟩ | ⟨e, hf, he⟩
  · exact .inl ⟨_, by simp only [updateObject, hobject, hf, bind, Except.bind]; rfl,
      setObject_keeps hw hwf⟩
  · exact .inr ⟨e, by simp only [updateObject, hobject, hf, bind, Except.bind], he⟩

theorem grow_isRaised {n : Nat} (he : object.grow n = .error e) : e.IsRaised := by
  unfold Object.grow at he
  split at he
  · cases he
    exact .inr rfl
  · split at he <;> cases he

theorem setElement_isRaised {i : Nat} (he : object.setElement i c = .error e) : e.IsRaised := by
  simp only [Object.setElement, Except.map] at he
  split at he
  · rename_i hgrown
    cases he
    split at hgrown
    · exact grow_isRaised hgrown
    · cases hgrown
  · cases he

variable (hw : h.WellFormed)
include hw

theorem setArrayLength_safe (hobject : h.object o = .ok object) (hwf : object.WellFormed h)
    (hcls : object.cls = .array) (hv : h.Live v) : (setArrayLength o v).Safe h fun _ _ => True := by
  obtain ⟨n, hn⟩ := toNumber_ok hw.readable hv
  refine safe_look_bind hw hn ?_
  dsimp only
  split
  · exact safe_update hw (updateObject_keeps hw hobject (.inl ⟨_, rfl, hwf.setLength hcls _⟩))
  · exact safe_throw hw (.inr rfl)

theorem setNamed_safe {name : StrId} (ho : h.Live (.object o)) (hname : h.Live (.string name))
    (hv : h.Live v) : (setNamed o name v).Safe h fun _ _ => True :=
  safe_update hw (.inl (defineNamed_keeps hw ho hname hv))

/-- A converted value is written into a typed array. -/
theorem setTyped_safe (hobject : h.object o = .ok object) (hwf : object.WellFormed h)
    (hf : ∃ x, f h = .ok x) (inject : α → Value)
    (htag : ∀ x, object.cls.elementTag? = some (inject x).tag) (hlive : ∀ x, h.Live (inject x))
    (i : Nat) :
    Safe (do
      let n ← look f
      update (·.updateObject o fun object => .ok (object.setTyped i (inject n)))) h
      fun _ _ => True := by
  obtain ⟨x, hx⟩ := hf
  exact safe_look_bind hw hx <| safe_update hw
    (updateObject_keeps hw hobject (.inl ⟨_, rfl, hwf.setTyped (htag x) i (hlive x)⟩))

/-- An assignment to an object keeps the heap well-formed. -/
theorem setObjectElement_safe {k : PropertyKey} (ho : h.Live (.object o)) (hk : k.Live h)
    (hv : h.Live v) : (setObjectElement o k v).Safe h fun _ _ => True := by
  obtain ⟨object, hobject, hwf⟩ := object_ok hw ho
  refine safe_look_bind hw hobject ?_
  split
  · rename_i i hcls
    refine safe_update hw (updateObject_keeps hw hobject ?_)
    cases hset : object.setElement i v.toCell with
    | ok o' => exact .inl ⟨o', rfl, hwf.setElement hcls hv hset⟩
    | error e => exact .inr ⟨e, rfl, setElement_isRaised hset⟩
  · rename_i n hcls
    split
    · exact setArrayLength_safe hw hobject hwf hcls hv
    · exact setNamed_safe hw ho hk hv
  · rename_i i hcls
    exact setTyped_safe hw hobject hwf (toInt32_ok hw.readable hv) .int32 (fun x => by rw [hcls]; rfl)
      (fun _ => trivial) i
  · rename_i i hcls
    exact setTyped_safe hw hobject hwf (toNumber_ok hw.readable hv) .double (fun x => by rw [hcls]; rfl)
      (fun _ => trivial) i
  · exact setNamed_safe hw ho hk hv
  · exact safe_bind (safe_intern hw _) fun name h₂ he₂ hw₂ hname =>
      setNamed_safe hw₂ (ho.mono he₂) hname (hv.mono he₂)

theorem setElement_safe (hbase : h.Live base) (hkey : h.Live key) (hv : h.Live v) :
    (setElement base key v).Safe h fun _ _ => True := by
  refine safe_bind (elementKey_safe hw hkey) fun k h₁ he₁ hw₁ hk => ?_
  cases base with
  | object o => exact setObjectElement_safe hw₁ (hbase.mono he₁) hk (hv.mono he₁)
  | _ => exact safe_pure hw₁ trivial

theorem initProperty_safe {name : StrId} (hbase : h.Live base) (hname : h.Live (.string name))
    (hv : h.Live v) : (initProperty base name v).Safe h fun _ _ => True := by
  cases base with
  | object o => exact setNamed_safe hw hbase hname hv
  | _ => exact safe_throw hw (.inl rfl)

theorem coverIndex_safe (ho : h.Live (.object o)) (i : Nat) :
    (coverIndex o i).Safe h fun _ _ => True := by
  obtain ⟨object, hobject, hwf⟩ := object_ok hw ho
  refine safe_update hw (updateObject_keeps hw hobject (.inl ⟨_, rfl, ?_⟩))
  split
  · rename_i hif
    exact hwf.raiseLength hif.1 (Nat.le_succ_of_le hif.2)
  · exact hwf

/-- Setting an element of a literal keeps the heap well-formed. -/
theorem initElement_safe (hbase : h.Live base) (hkey : h.Live key) (hv : h.Live v) (isLast : Bool) :
    (initElement base key v isLast).Safe h fun _ _ => True := by
  cases base with
  | object o =>
    refine safe_bind (setElement_safe hw hbase hkey hv) fun _ h₁ he₁ hw₁ _ => ?_
    split
    · refine safe_bind (toPropertyKey_safe hw₁ (hkey.mono he₁)) fun k h₂ he₂ hw₂ _ => ?_
      cases k with
      | index i => exact coverIndex_safe hw₂ ((hbase.mono he₁).mono he₂) i
      | name s => exact safe_pure hw₂ trivial
    · exact safe_pure hw₁ trivial
  | _ => exact safe_throw hw (.inl rfl)

end FastPath
