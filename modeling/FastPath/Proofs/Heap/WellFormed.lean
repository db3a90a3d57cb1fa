import FastPath.Heap.Basic
import FastPath.Proofs.Heap.ShapeTree

/-!
# Well-formed heaps

Cells are words: nothing in the type of a heap keeps a slot from holding a handle of no
object, or an array from having fewer cells than its initialized length says. `WellFormed`
collects what every heap that a program can make satisfies. Strings and objects are only
ever added, and shapes keep their names (`Heap.Extends`), so what refers to a heap stays
meaningful in every later one.
-/

namespace FastPath

/-- The tag word that every element of a typed array of the class carries. -/
def ObjectClass.elementTag? : ObjectClass → Option Tag
  | int32Array => some .int32
  | float64Array => some .double
  | plain | array => none

namespace Heap

/-- The handles in a value name something. -/
def Live (h : Heap) : Value → Prop
  | .string s => s.index.toNat < h.strings.size
  | .object o => o.index.toNat < h.objects.size
  | _ => True

/-- The cell encodes a value with live handles. -/
def Encodes (h : Heap) (c : Cell) : Prop := ∃ v, c = v.toCell ∧ h.Live v

end Heap

/-- What an object of a heap satisfies. -/
structure Object.WellFormed (h : Heap) (o : Object) : Prop where
  /-- The shape is one of the heap's. -/
  shape : o.shape < h.shapes.size
  /-- There is a slot for every name of the shape. -/
  slotCount : o.slots.size = h.shapes.slotCount o.shape
  names : ∀ n ∈ h.shapes.keys o.shape, h.Live (.string n)
  slots : ∀ c ∈ o.slots, h.Encodes c
  /-- Initialized elements are values or holes. -/
  elements : ∀ (i : Nat) (c : Cell), i < o.initializedLength → o.elements[i]? = some c →
    c.isHole = false → h.Encodes c
  /-- The initialized part of an array is within its storage and its length, and the rest of
  the storage is empty. -/
  array : o.cls = .array → o.initializedLength ≤ o.capacity ∧ o.initializedLength ≤ o.length ∧
    ∀ (i : Nat) (c : Cell), o.initializedLength ≤ i → o.elements[i]? = some c → c.isHole
  /-- A typed array is initialized throughout, with elements of its one type. -/
  typed : ∀ t, o.cls.elementTag? = some t → o.elements.size = o.initializedLength ∧
    o.initializedLength = o.length ∧ ∀ c ∈ o.elements, c.tag = t.word

namespace Heap

/-- What every heap satisfies. -/
structure WellFormed (h : Heap) : Prop where
  /-- No text is interned twice. -/
  distinct : ∀ (i j : Nat) (s : String), h.strings.get? i = some s → h.strings.get? j = some s →
    i = j
  /-- The table of handles is the inverse of the list of texts. -/
  inverse : ∀ (s : String) (i : Nat), h.strings.find? s = some i ↔ h.strings.get? i = some s
  /-- The shape without names is there, and so is the name `length`. -/
  root : h.shapes.get? Shapes.root = some #[]
  length : h.Live (.string .length)
  objects : ∀ (i : Nat) (o : Object), h.objects[i]? = some o → o.WellFormed h
  proto : ∀ (i : Nat) (c : Cell), h.protoElement? i = some c → h.Encodes c

/-- Nothing is lost on the way from one heap to another. -/
structure Extends (h h' : Heap) : Prop where
  strings : h.strings.size ≤ h'.strings.size
  objects : h.objects.size ≤ h'.objects.size
  shapes : ∀ (s : ShapeId) (ks : Array StrId), h.shapes.get? s = some ks →
    h'.shapes.get? s = some ks

variable {h h' h'' : Heap} {v : Value} {c : Cell} {o : Object}

namespace Extends

theorem refl (h : Heap) : h.Extends h := ⟨Nat.le_refl _, Nat.le_refl _, fun _ _ hs => hs⟩

theorem trans (he : h.Extends h') (he' : h'.Extends h'') : h.Extends h'' :=
  ⟨Nat.le_trans he.strings he'.strings, Nat.le_trans he.objects he'.objects,
    fun s ks hs => he'.shapes s ks (he.shapes s ks hs)⟩

end Extends

/-! ### Later heaps -/

theorem Live.mono (he : h.Extends h') (hv : h.Live v) : h'.Live v := by
  cases v with
  | string s => exact Nat.lt_of_lt_of_le hv he.strings
  | object o => exact Nat.lt_of_lt_of_le hv he.objects
  | _ => trivial

theorem Encodes.mono (he : h.Extends h') : h.Encodes c → h'.Encodes c
  | ⟨v, hc, hv⟩ => ⟨v, hc, hv.mono he⟩

theorem encodes_toCell (hv : h.Live v) : h.Encodes v.toCell := ⟨v, rfl, hv⟩

variable {s : ShapeId}

theorem Extends.keys (he : h.Extends h') (hs : s < h.shapes.size) :
    h'.shapes.keys s = h.shapes.keys s := Shapes.keys_of_get? (he.shapes s _ (Shapes.get?_eq hs))

end Heap

open Heap

variable {h h' : Heap} {v : Value} {c : Cell} {o : Object}

theorem Object.WellFormed.mono (he : h.Extends h') (ho : o.WellFormed h) : o.WellFormed h' where
  shape := Shapes.get?_lt (he.shapes _ _ (Shapes.get?_eq ho.shape))
  slotCount := by rw [ho.slotCount, Shapes.slotCount, Shapes.slotCount, he.keys ho.shape]
  names n hn := (ho.names n (he.keys ho.shape ▸ hn)).mono he
  slots c hc := (ho.slots c hc).mono he
  elements i c hi hc hhole := (ho.elements i c hi hc hhole).mono he
  array := ho.array
  typed := ho.typed

namespace Heap

/-- A heap that differs only by what objects refer to. -/
theorem WellFormed.of_objects (hw : h.WellFormed) (he : h.Extends h')
    (hobjects : ∀ (i : Nat) (o : Object), h'.objects[i]? = some o →
      h.objects[i]? = some o ∨ o.WellFormed h')
    (hproto : ∀ (i : Nat) (c : Cell), h'.protoElement? i = some c →
      h.protoElement? i = some c ∨ h'.Encodes c) : h'.WellFormed where
  distinct _ _ _ := Interner.get?_injective
  inverse _ _ := Interner.find?_eq_some_iff
  root := he.shapes _ _ hw.root
  length := hw.length.mono he
  objects i o ho := (hobjects i o ho).elim (fun hold => (hw.objects i o hold).mono he) id
  proto i c hc := (hproto i c hc).elim (fun hold => (hw.proto i c hold).mono he) id

/-- A change keeps the heap well formed and loses nothing. -/
def Keeps (h h' : Heap) : Prop := h.Extends h' ∧ h'.WellFormed

theorem Keeps.refl (hw : h.WellFormed) : h.Keeps h := ⟨.refl h, hw⟩

/-! ### Strings -/

theorem size_intern_le {α : Type} [BEq α] [Hashable α] [LawfulBEq α] (t : Interner α) (a : α) :
    t.size ≤ (t.intern a).2.size := by
  unfold Interner.intern
  split
  · exact Nat.le_refl _
  · simp [Interner.push, Interner.size]

theorem intern_extends (h : Heap) (s : String) : h.Extends (h.intern s).2 :=
  ⟨size_intern_le _ _, Nat.le_refl _, fun _ _ hs => hs⟩

theorem intern_keeps (hw : h.WellFormed) (s : String) : h.Keeps (h.intern s).2 :=
  ⟨intern_extends h s, hw.of_objects (intern_extends h s) (fun _ _ => .inl) fun _ _ => .inl⟩

theorem live_intern (h : Heap) (s : String) : (h.intern s).2.Live (.string (h.intern s).1) := by
  have hlt : (h.strings.intern s).1 < (h.strings.intern s).2.size :=
    Interner.get?_lt (Interner.get?_intern_self h.strings s)
  refine Nat.lt_of_le_of_lt ?_ hlt
  change (UInt32.ofNat (h.strings.intern s).1).toNat ≤ _
  rw [UInt32.toNat_ofNat']
  exact Nat.mod_le _ _

theorem internAll_keeps (hw : h.WellFormed) (ss : List String) : h.Keeps (h.internAll ss).2 := by
  induction ss generalizing h with
  | nil => exact .refl hw
  | cons s ss ih =>
    obtain ⟨he, hw₁⟩ := intern_keeps hw s
    obtain ⟨he', hw₂⟩ := ih hw₁
    exact ⟨he.trans he', hw₂⟩

theorem get?_root_new : Shapes.new.get? Shapes.root = some #[] := Shapes.new.root_eq

/-- Interning leaves everything but the strings alone. -/
theorem internAll_eq (h : Heap) (ss : List String) :
    (h.internAll ss).2 = { h with strings := (h.internAll ss).2.strings } := by
  induction ss generalizing h with
  | nil => rfl
  | cons s ss ih => exact (ih (h.intern s).2).trans rfl

/-- Texts that are new are entered in order. -/
theorem items_internAll (h : Heap) (texts : List String)
    (hnew : (h.strings.items.toList ++ texts).Nodup) :
    (h.internAll texts).2.strings.items.toList = h.strings.items.toList ++ texts := by
  induction texts generalizing h with
  | nil => simp [internAll]
  | cons text texts ih =>
    have hnone : h.strings.find? text = none := by
      refine Option.eq_none_iff_forall_ne_some.2 fun i hi => ?_
      have hmem := Array.mem_of_getElem? (Interner.find?_eq_some_iff.1 hi)
      exact (List.nodup_append.1 hnew).2.2 text (Array.mem_toList_iff.2 hmem) text
        List.mem_cons_self rfl
    have hitems : (h.intern text).2.strings.items.toList = h.strings.items.toList ++ [text] := by
      change (h.strings.intern text).2.items.toList = _
      unfold Interner.intern
      split
      · next i hi =>
        rw [hnone] at hi
        cases hi
      · simp [Interner.push]
    change ((h.intern text).2.internAll texts).2.strings.items.toList = _
    rw [ih _ (by rw [hitems]; simpa using hnew), hitems, List.append_assoc]
    rfl

theorem items_new :
    Heap.new.strings.items.toList = TypeName.all.map TypeName.text ++ ["length"] :=
  items_internAll ⟨Interner.empty, #[], Shapes.new, ∅, 0⟩ _ (by decide)

/-- The empty heap is well formed. -/
theorem new_wellFormed : Heap.new.WellFormed := by
  have hnew := internAll_eq ⟨Interner.empty, #[], Shapes.new, ∅, 0⟩
    (TypeName.all.map TypeName.text ++ ["length"])
  refine ⟨fun _ _ _ => Interner.get?_injective, fun _ _ => Interner.find?_eq_some_iff, ?_, ?_,
    fun i o ho => ?_, fun i c hc => ?_⟩
  · rw [Heap.new, hnew]
    exact get?_root_new
  · change 6 < Heap.new.strings.items.size
    rw [← Array.length_toList, items_new]
    decide
  · rw [Heap.new, hnew] at ho
    simp at ho
  · rw [Heap.new, hnew] at hc
    simp [protoElement?] at hc

theorem string_ok {s : StrId} (hs : h.Live (.string s)) : ∃ text, h.string s = .ok text := by
  have hsome : h.strings.get? s.index.toNat = some h.strings.items[s.index.toNat] :=
    Array.getElem?_eq_getElem hs
  exact ⟨_, by rw [string, hsome]⟩

/-! ### Objects -/

variable {i : ObjId}

theorem exists_object (hi : h.Live (.object i)) : ∃ o, h.object i = .ok o := by
  have hsome : h.objects[i.index.toNat]? = some h.objects[i.index.toNat] :=
    Array.getElem?_eq_getElem hi
  exact ⟨_, by rw [object, hsome]⟩

theorem live_of_object (ho : h.object i = .ok o) : h.Live (.object i) := by
  unfold Heap.object at ho
  split at ho
  · next hget => exact (Array.getElem?_eq_some_iff.1 hget).1
  · cases ho

/-- An object that is found is well formed. -/
theorem WellFormed.object (hw : h.WellFormed) (ho : h.object i = .ok o) : o.WellFormed h := by
  unfold Heap.object at ho
  split at ho
  · next hget =>
    cases ho
    exact hw.objects _ _ hget
  · cases ho

theorem object_ok (hw : h.WellFormed) (hi : h.Live (.object i)) :
    ∃ o, h.object i = .ok o ∧ o.WellFormed h :=
  (exists_object hi).imp fun _ ho => ⟨ho, hw.object ho⟩

theorem alloc_keeps (hw : h.WellFormed) (ho : o.WellFormed h) : h.Keeps (h.alloc o).2 := by
  have he : h.Extends (h.alloc o).2 := ⟨Nat.le_refl _, by simp [alloc], fun _ _ hs => hs⟩
  refine ⟨he, hw.of_objects he (fun i o' ho' => ?_) fun _ _ => .inl⟩
  simp only [alloc, Array.getElem?_push] at ho'
  split at ho'
  · cases ho'
    exact .inr (ho.mono he)
  · exact .inl ho'

theorem live_alloc (h : Heap) (o : Object) : (h.alloc o).2.Live (.object (h.alloc o).1) := by
  change (UInt32.ofNat h.objects.size).toNat < (h.objects.push o).size
  rw [UInt32.toNat_ofNat', Array.size_push]
  exact Nat.lt_succ_of_le (Nat.mod_le _ _)

theorem setObject_keeps (hw : h.WellFormed) (ho : o.WellFormed h) : h.Keeps (h.setObject i o) := by
  have he : h.Extends (h.setObject i o) :=
    ⟨Nat.le_refl _, by simp [setObject], fun _ _ hs => hs⟩
  refine ⟨he, hw.of_objects he (fun j o' ho' => ?_) fun _ _ => .inl⟩
  simp only [setObject, Array.getElem?_setIfInBounds] at ho'
  split at ho'
  · split at ho'
    · cases ho'
      exact .inr (ho.mono he)
    · cases ho'
  · exact .inl ho'

theorem setShapes_keeps (hw : h.WellFormed) (shapes : Shapes)
    (hs : ∀ (s : ShapeId) (ks : Array StrId), h.shapes.get? s = some ks →
      shapes.get? s = some ks) : h.Keeps { h with shapes } := by
  have he : h.Extends { h with shapes } := ⟨Nat.le_refl _, Nat.le_refl _, hs⟩
  exact ⟨he, hw.of_objects he (fun _ _ => .inl) fun _ _ => .inl⟩

theorem setProtoElement_keeps (hw : h.WellFormed) (i : Nat) (hv : h.Live v) :
    h.Keeps (h.setProtoElement i v) := by
  have he : h.Extends (h.setProtoElement i v) := ⟨Nat.le_refl _, Nat.le_refl _, fun _ _ hs => hs⟩
  refine ⟨he, hw.of_objects he (fun _ _ => .inl) fun j c hc => ?_⟩
  simp only [setProtoElement, protoElement?, Std.HashMap.getElem?_insert] at hc
  split at hc
  · cases hc
    exact .inr (encodes_toCell (hv.mono he))
  · exact .inl hc

end Heap

/-! ### Named slots -/

theorem Heap.Encodes.undefined (h : Heap) : h.Encodes .undefined := ⟨.undefined, rfl, trivial⟩

theorem Object.plain_wellFormed {s : ShapeId} (hs : s < h.shapes.size)
    (hnames : ∀ n ∈ h.shapes.keys s, h.Live (.string n)) :
    (Object.plain s (h.shapes.slotCount s)).WellFormed h where
  shape := hs
  slotCount := by simp [Object.plain]
  names := hnames
  slots c hc := by
    rw [Array.eq_of_mem_replicate hc]
    exact .undefined h
  elements i c hi := nomatch hi
  array hcls := nomatch hcls
  typed t ht := nomatch ht

/-- Writing a named property keeps the heap well formed. -/
theorem Heap.defineNamed_keeps (hw : h.WellFormed) {i : ObjId} {k : StrId} (ho : h.Live (.object i))
    (hk : h.Live (.string k)) (hv : h.Live v) :
    ∃ h', h.defineNamed i k v = .ok h' ∧ h.Keeps h' := by
  obtain ⟨object, hobject, hwf⟩ := object_ok hw ho
  have hset : ∀ (slots : Array Cell) (n : Nat), (∀ c ∈ slots, h.Encodes c) →
      ∀ c ∈ slots.setIfInBounds n v.toCell, h.Encodes c := by
    intro slots n hall c hc
    rcases Array.mem_or_eq_of_mem_setIfInBounds hc with hc | rfl
    · exact hall c hc
    · exact encodes_toCell hv
  cases hslot : h.slotOf? object k with
  | some slot =>
    refine ⟨_, by simp only [defineNamed, hobject, hslot, bind, Except.bind]; rfl, ?_⟩
    refine setObject_keeps hw { hwf with slotCount := ?_, slots := ?_ }
    · simpa using hwf.slotCount
    · exact hset _ _ hwf.slots
  | none =>
    refine ⟨_, by simp only [defineNamed, hobject, hslot, bind, Except.bind]; rfl, ?_⟩
    -- the shapes grow first; the object then moves to a shape with one name more
    have hget := Shapes.get?_transition hwf.shape k
    obtain ⟨he, hw₁⟩ := setShapes_keeps hw (h.shapes.transition object.shape k).2
      fun _ _ hs => Shapes.get?_transition_of_some hs
    have hwf₁ := hwf.mono he
    obtain ⟨he₂, hw₂⟩ := setObject_keeps (i := i) hw₁ (o := { object with
        shape := (h.shapes.transition object.shape k).1, slots := object.slots.push v.toCell })
      { hwf₁ with
        shape := Shapes.get?_lt hget
        slotCount := by
          simp only [Array.size_push, Shapes.slotCount, Shapes.keys, hget, Option.getD_some]
          rw [hwf.slotCount]
          rfl
        names := by
          intro n hn
          rw [Shapes.keys_of_get? hget] at hn
          rcases Array.mem_push.1 hn with hn | rfl
          · exact (hwf.names n hn).mono he
          · exact hk.mono he
        slots := by
          intro c hc
          rcases Array.mem_push.1 hc with hc | rfl
          · exact hwf₁.slots c hc
          · exact encodes_toCell (hv.mono he) }
    exact ⟨he.trans he₂, hw₂⟩

/-! ### Element storage -/

namespace Object.WellFormed

variable {o' : Object}

/-- Storage that is added is empty. -/
theorem grow {capacity : Nat} (ho : o.WellFormed h) (hcls : o.cls = .array)
    (hgrow : o.grow capacity = .ok o') :
    o'.WellFormed h ∧ o'.cls = .array ∧ capacity ≤ max o.capacity o'.capacity := by
  unfold Object.grow at hgrow
  split at hgrow
  · cases hgrow
  · rename_i hmax
    split at hgrow
    · rename_i hlt
      cases hgrow
      obtain ⟨hcap, hlen, hholes⟩ := ho.array hcls
      refine ⟨{ ho with elements := ?_, array := ?_, typed := ?_ }, hcls, ?_⟩
      · intro i c hi hc hhole
        rw [Array.getElem?_append_left (Nat.lt_of_lt_of_le hi hcap)] at hc
        exact ho.elements i c hi hc hhole
      · refine fun _ => ⟨?_, hlen, fun i c hi hc => ?_⟩
        · simp only [Object.capacity, Array.size_append]
          exact Nat.le_trans hcap (Nat.le_add_right _ _)
        · simp only [Array.getElem?_append, Array.getElem?_replicate] at hc
          split at hc
          · exact hholes i c hi hc
          · split at hc
            · cases hc
              rfl
            · cases hc
      · intro t ht
        simp only [hcls] at ht
        cases ht
      · simp only [Object.capacity, Array.size_append, Array.size_replicate] at hlt hmax ⊢
        omega
    · cases hgrow
      exact ⟨ho, hcls, by omega⟩

/-- Writing an element of an array. -/
theorem setElement (ho : o.WellFormed h) (hcls : o.cls = .array) {i : Nat} (hv : h.Live v)
    (hset : o.setElement i v.toCell = .ok o') : o'.WellFormed h := by
  simp only [Object.setElement, Except.map] at hset
  split at hset
  · cases hset
  · rename_i grown hgrown
    cases hset
    have hg : grown.WellFormed h ∧ grown.cls = .array ∧ i < grown.capacity := by
      split at hgrown
      · rename_i hle
        obtain ⟨hwf, hcls', hcap⟩ := ho.grow hcls hgrown
        exact ⟨hwf, hcls', by omega⟩
      · cases hgrown
        exact ⟨ho, hcls, by omega⟩
    obtain ⟨hwf, hcls', hlt⟩ := hg
    obtain ⟨hcap, hlen, hholes⟩ := hwf.array hcls'
    refine { hwf with elements := ?_, array := ?_, typed := ?_ }
    · intro j c hj hc hhole
      rw [Array.getElem?_setIfInBounds] at hc
      split at hc
      · split at hc
        · cases hc
          exact encodes_toCell hv
        · cases hc
      · by_cases hj' : j < grown.initializedLength
        · exact hwf.elements j c hj' hc hhole
        · rw [hholes j c (Nat.not_lt.1 hj') hc] at hhole
          cases hhole
    · refine fun _ => ⟨?_, by dsimp only; omega, fun j c hj hc => ?_⟩
      · simp only [Object.capacity, Array.size_setIfInBounds] at hcap hlt ⊢
        omega
      · dsimp only at hj
        rw [Array.getElem?_setIfInBounds, if_neg (by omega)] at hc
        exact hholes j c (by omega) hc
    · intro t ht
      simp only [hcls'] at ht
      cases ht

/-- Setting the length of an array. -/
theorem setLength (ho : o.WellFormed h) (hcls : o.cls = .array) (n : Nat) :
    (o.setLength n).WellFormed h := by
  obtain ⟨hcap, hlen, hholes⟩ := ho.array hcls
  unfold Object.setLength
  split
  · rename_i hlt
    refine { ho with elements := ?_, array := ?_, typed := ?_ }
    · intro i c hi hc hhole
      dsimp only at hi
      rw [Array.getElem?_mapIdx] at hc
      obtain ⟨c', hc', rfl⟩ := Option.map_eq_some_iff.1 hc
      rw [if_neg (by omega)] at hhole ⊢
      exact ho.elements i c' (by omega) hc' hhole
    · refine fun _ => ⟨?_, Nat.le_refl _, fun i c hi hc => ?_⟩
      · simp only [Object.capacity, Array.size_mapIdx] at hcap ⊢
        omega
      · dsimp only at hi
        rw [Array.getElem?_mapIdx] at hc
        obtain ⟨c', hc', rfl⟩ := Option.map_eq_some_iff.1 hc
        by_cases hold : i < o.initializedLength
        · rw [if_pos ⟨hi, hold⟩]
          rfl
        · rw [if_neg (by omega)]
          exact hholes i c' (by omega) hc'
    · intro t ht
      simp only [hcls] at ht
      cases ht
  · refine { ho with array := fun _ => ⟨hcap, by dsimp only; omega, hholes⟩, typed := ?_ }
    intro t ht
    simp only [hcls] at ht
    cases ht

/-- Writing an element of a typed array. -/
theorem setTyped (ho : o.WellFormed h) (hcls : o.cls.elementTag? = some v.tag) (i : Nat)
    (hv : h.Live v) : (o.setTyped i v).WellFormed h := by
  obtain ⟨hsize, hlen, htags⟩ := ho.typed _ hcls
  refine { ho with elements := ?_, array := ?_, typed := ?_ }
  · intro j c hj hc hhole
    simp only [Object.setTyped, Array.getElem?_setIfInBounds] at hc
    split at hc
    · split at hc
      · cases hc
        exact encodes_toCell hv
      · cases hc
    · exact ho.elements j c hj hc hhole
  · intro harray
    change o.cls = .array at harray
    rw [harray] at hcls
    cases hcls
  · intro t ht
    change o.cls.elementTag? = some t at ht
    obtain rfl : v.tag = t := Option.some.inj (hcls.symm.trans ht)
    refine ⟨by simpa [Object.setTyped] using hsize, hlen, fun c hc => ?_⟩
    rcases Array.mem_or_eq_of_mem_setIfInBounds hc with hc | rfl
    · exact htags c hc
    · rfl

/-- Raising the length of an array. -/
theorem raiseLength (ho : o.WellFormed h) (hcls : o.cls = .array) {n : Nat} (hn : o.length ≤ n) :
    { o with length := n }.WellFormed h := by
  obtain ⟨hcap, hlen, hholes⟩ := ho.array hcls
  refine { ho with array := fun _ => ⟨hcap, Nat.le_trans hlen hn, hholes⟩, typed := ?_ }
  intro t ht
  simp only [hcls] at ht
  cases ht

end Object.WellFormed

/-! ### New objects -/

theorem Heap.WellFormed.slotCount_root (hw : h.WellFormed) :
    h.shapes.slotCount Shapes.root = 0 := by
  rw [Shapes.slotCount, Shapes.keys, hw.root]
  rfl

theorem Heap.WellFormed.names_root (hw : h.WellFormed) :
    ∀ n ∈ h.shapes.keys Shapes.root, h.Live (.string n) := by
  intro n hn
  rw [Shapes.keys_of_get? hw.root] at hn
  cases Array.not_mem_empty n hn

/-- An array under construction is well-formed. -/
theorem Object.arrayLiteral_wellFormed (hw : h.WellFormed) (count : Nat) :
    (Object.arrayLiteral count).WellFormed h where
  shape := Shapes.get?_lt hw.root
  slotCount := hw.slotCount_root.symm
  names := hw.names_root
  slots c hc := by simp [Object.arrayLiteral] at hc
  elements i c hi := nomatch hi
  array _ := by
    refine ⟨Nat.zero_le _, Nat.zero_le _, fun i c _ hc => ?_⟩
    simp only [Object.arrayLiteral, Array.getElem?_replicate] at hc
    split at hc
    · cases hc
      rfl
    · cases hc
  typed t ht := nomatch ht

/-- A new array is well-formed. -/
theorem Object.array_wellFormed (hw : h.WellFormed) {values : Array Value}
    (hvalues : ∀ v ∈ values, h.Live v) (capacity : Nat) :
    (Object.array values capacity).WellFormed h where
  shape := Shapes.get?_lt hw.root
  slotCount := hw.slotCount_root.symm
  names := hw.names_root
  slots c hc := by simp [Object.array] at hc
  elements i c hi hc _ := by
    change i < values.size at hi
    simp only [Object.array] at hc
    rw [Array.getElem?_append_left (by simpa using hi), Array.getElem?_map] at hc
    obtain ⟨v, hv, rfl⟩ := Option.map_eq_some_iff.1 hc
    exact encodes_toCell (hvalues v (Array.mem_of_getElem? hv))
  array _ := by
    refine ⟨by simp [Object.array, Object.capacity], Nat.le_refl _, fun i c hi hc => ?_⟩
    change values.size ≤ i at hi
    simp only [Object.array] at hc
    rw [Array.getElem?_append_right (by simpa using hi), Array.getElem?_replicate] at hc
    split at hc
    · cases hc
      rfl
    · cases hc
  typed t ht := nomatch ht

/-- A new typed array is well-formed. -/
theorem Object.typedArray_wellFormed (hw : h.WellFormed) {cls : ObjectClass}
    (hcls : cls.elementTag? = some v.tag) (hv : h.Live v) (length : Nat) :
    (Object.typedArray cls v length).WellFormed h where
  shape := Shapes.get?_lt hw.root
  slotCount := hw.slotCount_root.symm
  names := hw.names_root
  slots c hc := by simp [Object.typedArray] at hc
  elements i c hi hc _ := by
    simp only [Object.typedArray, Array.getElem?_replicate] at hc
    split at hc
    · cases hc
      exact encodes_toCell hv
    · cases hc
  array harray := by
    change cls = .array at harray
    rw [harray] at hcls
    cases hcls
  typed t ht := by
    change cls.elementTag? = some t at ht
    obtain rfl : v.tag = t := Option.some.inj (hcls.symm.trans ht)
    refine ⟨by simp [Object.typedArray], rfl, fun c hc => ?_⟩
    rw [Array.eq_of_mem_replicate hc]
    rfl

end FastPath
