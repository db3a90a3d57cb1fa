import FastPath.Proofs.Generic.Same

/-!
# Dense arrays implement sparse ones

A dense array keeps a capacity, an initialized length, a visible length and cells of which some
are holes. Together they stand for something simpler: a length, and values at some indices. Element
access is described by that alone, the room for growth apart: a write to an index within the limit
adds one value, setting the length forgets the values past it, and a hole reads as what the
prototype has.
-/

namespace FastPath

/-- An array without regard to its storage: a length, and the values at some indices. -/
@[ext] structure Sparse where
  length : Nat
  get? : Nat → Option Value

namespace Sparse

/-- A value is put at an index, and the length covers it. -/
def set (a : Sparse) (i : Nat) (v : Value) : Sparse :=
  ⟨max a.length (i + 1), fun j => if j = i then some v else a.get? j⟩

/-- The length is set, and no values are left past it. -/
def resize (a : Sparse) (n : Nat) : Sparse := ⟨n, fun j => if j < n then a.get? j else none⟩

end Sparse

/-! ### Storage -/

namespace Object

variable {o o' : Object} {n i j : Nat} {v : Value}

/-- What the storage of an array stands for. -/
def sparse (o : Object) : Sparse := ⟨o.length, fun i => (o.element? i).bind (·.decode.toOption)⟩

/-- The cells of a larger storage: those that were there, and holes. -/
theorem grow_ok (hn : n ≤ maxDenseCapacity) : ∃ o', o.grow n = .ok o' ∧ n ≤ o'.capacity ∧
    o' = { o with elements := o'.elements } ∧
    ∀ j : Nat, o'.elements[j]? = o.elements[j]? ∨
      o.elements[j]? = none ∧ o'.elements[j]? = some Cell.hole := by
  unfold grow
  rw [if_neg (Nat.not_lt.2 hn)]
  split
  · next hlt =>
    refine ⟨_, rfl, ?_, rfl, fun j => ?_⟩
    · simp only [capacity, Array.size_append, Array.size_replicate] at hlt ⊢
      omega
    · rw [Array.getElem?_append]
      split
      · exact .inl rfl
      · next hj =>
        rw [Array.getElem?_eq_none (Nat.not_lt.1 hj), Array.getElem?_replicate]
        split
        · exact .inr ⟨rfl, rfl⟩
        · exact .inl rfl
  · next hge => exact ⟨o, rfl, Nat.not_lt.1 hge, rfl, fun _ => .inl rfl⟩

/-- A write to an index within the limit. Cells past the initialized ones have to be holes, since
the write may let the initialized length pass over them. -/
theorem setElement_sparse (v : Value)
    (hholes : ∀ (j : Nat) (c : Cell), o.initializedLength ≤ j → o.elements[j]? = some c → c.isHole)
    (hi : i < max o.capacity maxDenseCapacity) : ∃ o', o.setElement i v.toCell = .ok o' ∧
      o'.sparse = o.sparse.set i v ∧ o'.cls = o.cls ∧ o'.shape = o.shape ∧ o'.slots = o.slots := by
  obtain ⟨g, hg, hcap, hsame, hcells⟩ : ∃ g,
    (if o.capacity ≤ i then o.grow (i + 1) else .ok o) = .ok g ∧
      i < g.capacity ∧ g = { o with elements := g.elements } ∧
      ∀ j : Nat, g.elements[j]? = o.elements[j]? ∨
        o.elements[j]? = none ∧ g.elements[j]? = some Cell.hole := by
    split
    · exact grow_ok (by omega)
    · next hlt => exact ⟨o, rfl, Nat.not_le.1 hlt, rfl, fun _ => .inl rfl⟩
  have hlen : g.length = o.length := by rw [hsame]
  have hinit : g.initializedLength = o.initializedLength := by rw [hsame]
  refine ⟨_, by rw [setElement, hg]; rfl, Sparse.ext ?_ (funext fun j => ?_), ?_, ?_, ?_⟩
  · change max g.length (i + 1) = _
    rw [hlen]
    rfl
  · simp only [sparse, Sparse.set, element?, hinit, Array.getElem?_setIfInBounds]
    by_cases hij : j = i
    · subst hij
      change j < g.elements.size at hcap
      have hhole : v.toCell.isHole = false := by cases v <;> rfl
      simp [hcap, Option.filter, hhole, Cell.decode_toCell, Except.toOption]
    · rw [if_neg (Ne.symm hij), if_neg hij]
      congr 1
      rcases hcells j with hj | ⟨hnone, hj⟩
      · -- the cells that are passed over are holes
        rw [hj]
        by_cases hold : j < o.initializedLength
        · rw [if_pos hold, if_pos (by omega)]
        · rw [if_neg hold]
          cases hc : o.elements[j]? with
          | none => simp
          | some c => simp [Option.filter, hholes j c (Nat.not_lt.1 hold) hc]
      · rw [hnone, hj]
        have hhole : Cell.hole.isHole := rfl
        simp [Option.filter, hhole]
  all_goals
    dsimp only
    rw [hsame]

theorem setElement_refuses {c : Cell} (hi : max o.capacity maxDenseCapacity ≤ i) :
    ∃ e, o.setElement i c = .error e := by
  refine ⟨.denseLimit (i + 1), ?_⟩
  rw [setElement, if_pos (by omega), grow, if_pos (by omega)]
  rfl

/-- Setting the length erases what is past it, and storage that is not initialized is not seen. -/
theorem sparse_setLength (o : Object) (n : Nat) : (o.setLength n).sparse = o.sparse.resize n := by
  unfold setLength
  split
  · next hlt =>
    refine Sparse.ext rfl (funext fun j => ?_)
    simp only [sparse, Sparse.resize, element?, Array.getElem?_mapIdx]
    split
    · next hj =>
      rw [if_pos (Nat.lt_trans hj hlt)]
      cases o.elements[j]? with
      | none => rfl
      | some c => rw [Option.map_some, if_neg (by omega)]
    · rfl
  · next hge =>
    refine Sparse.ext rfl (funext fun j => ?_)
    simp only [sparse, Sparse.resize, element?]
    split
    · split
      · rfl
      · omega
    · split <;> rfl

end Object

/-! ### Keys and lengths -/

/-- A number that equals a natural number. -/
theorem Double.truncate_of_eq_ofNat {n : Nat} {d : Double} (hn : n < UInt32.size)
    (h : (ofNat n).eq d) : d.isIntegral ∧ d.truncate = n := by
  have habs : (n : Int).natAbs < twoPow 53 := Nat.lt_trans (by simpa using hn) (by decide)
  have hnat : ofNat n = ofInt n := rfl
  simp only [eq, Bool.and_eq_true, beq_iff_eq] at h
  have hsign : (ofInt n).negative = false := by
    rw [negative_ofInt habs]
    exact decide_eq_false (Int.not_lt.2 (Int.natCast_nonneg n))
  have hkey : (ofInt n).magnitude = d.key := by
    rw [← h.2, key, hnat, hsign]
    rfl
  cases hneg : d.negative with
  | false =>
    rw [key, hneg, if_neg Bool.false_ne_true, Int.natCast_inj] at hkey
    have hd : d = ofInt n := by
      rw [← ofMagnitude_negative_magnitude d, ← ofMagnitude_negative_magnitude
        (ofInt n), hneg, hkey,
        hsign]
    rw [hd]
    exact ⟨isIntegral_ofInt habs, truncate_ofInt habs⟩
  | true =>
    -- then both are zero
    rw [key, hneg, if_pos rfl] at hkey
    have hmag : d.magnitude = 0 := by omega
    have hzero : n = 0 := by
      have hmag' : (ofInt n).magnitude = 0 := by omega
      simpa [isZero, hmag'] using isZero_ofInt habs
    have hman : d.mantissa = 0 := by
      simp [mantissa, biased, fraction, hmag]
    simp [isIntegral, truncate, isFinite, hmag, hman, hzero, infinityMagnitude,
      implicitBit, twoPow]

/-- The text of a number below `2 ^ 32 - 1` is read as that index. -/
theorem Numeral.index?_ofNat {i : Nat} (hi : i < UInt32.size - 1) : index? (ofNat i) = some i := by
  have htext : (ofNat i).toList = Nat.toDigits 10 i := String.toList_ofList
  have hdigits : (Nat.toDigits 10 i).all Char.isDigit :=
    List.all_eq_true.2 fun c hc => Nat.isDigit_of_mem_toDigits (by decide) (by decide) hc
  have hvalue : decimalValue (Nat.toDigits 10 i) = i := by
    have := Nat.ofDigitChars_ten_toDigits (n := i)
    rw [Nat.ofDigitChars_eq_foldl] at this
    simpa [decimalValue, Nat.mul_comm] using this
  rw [index?, htext, hvalue, if_neg (by simp [hdigits, Nat.toDigits_ne_nil]), if_pos ⟨hi, rfl⟩]

namespace Heap

variable {h : Heap} {o : ObjId} {object : Object} {i : Nat} {key v : Value}

/-- The keys that stand for an index: an integer, a number that equals it, its decimal numeral. -/
def IsIndex (h : Heap) (i : Nat) : Value → Prop
  | .int32 k => k.toInt = i
  | .double d => i < UInt32.size - 1 ∧ (Double.ofNat i).eq d
  | .string s => i < UInt32.size - 1 ∧ h.string s = .ok (Numeral.ofNat i)
  | _ => False

/-- An index is its own key. -/
theorem toPropertyKey_of_isIndex (hkey : h.IsIndex i key) :
    toPropertyKey key h = .ok (.index i) h := by
  cases key with
  | int32 k =>
    have hk : k.toInt = i := hkey
    simp only [toPropertyKey, hk, Int.natCast_nonneg, if_true]
    rfl
  | double d =>
    obtain ⟨hi, heq⟩ := hkey
    obtain ⟨hint, htr⟩ := Double.truncate_of_eq_ofNat (Nat.lt_of_lt_of_le hi (Nat.sub_le _ _)) heq
    have hindex : d.arrayIndex? = some i := by
      have hlt : (i : Int) < 0xffffffff := by exact_mod_cast hi
      simp [Double.arrayIndex?, hint, htr, hlt]
    simp only [toPropertyKey, hindex]
    rfl
  | string s =>
    obtain ⟨hi, htext⟩ := hkey
    rw [toPropertyKey, HeapM.bind_ok (HeapM.look_ok htext)]
    simp only [Numeral.index?_ofNat hi]
    rfl
  | _ => cases hkey

/-- The keys that stand for the length. -/
def IsLength (h : Heap) (key : Value) : Prop := toPropertyKey key h = .ok (.name .length) h

theorem isLength_string (hlength : h.string .length = .ok "length") :
    h.IsLength (.string .length) := by
  have hnone : Numeral.index? "length" = none := by decide
  rw [IsLength, toPropertyKey, HeapM.bind_ok (HeapM.look_ok hlength)]
  simp only [hnone]
  rfl

/-! ### Element access -/

/-- The array has become another one, and nothing else has changed. -/
def Becomes (h : Heap) (o : ObjId) (object : Object) (a : Sparse)
    (r : EStateM.Result OpError Heap Unit) : Prop :=
  ∃ object', r = .ok () (h.setObject o object') ∧ object'.sparse = a ∧ object'.cls = object.cls ∧
    object'.shape = object.shape ∧ object'.slots = object.slots

/-- The write has failed, and nothing has changed. -/
def Refuses (h : Heap) (r : EStateM.Result OpError Heap Unit) : Prop := ∃ e, r = .error e h

/-- The value that the array prototype has at an index. -/
def protoValue? (h : Heap) (i : Nat) : Option Value :=
  (h.protoElement? i).bind (·.decode.toOption)

/-- The number that a value converts to is `n`. -/
def ConvertsTo (h : Heap) (v : Value) (n : Nat) : Prop :=
  ∃ d, h.toNumber v = .ok d ∧ (Double.ofNat n).eq d

theorem update_ok {f : Object → Except OpError Object} {object' : Object}
    (hobject : h.object o = .ok object) (hf : f object = .ok object') :
    HeapM.update (·.updateObject o f) h = .ok () (h.setObject o object') := by
  simp only [HeapM.update, updateObject, hobject, hf, bind, Except.bind]
  rfl

theorem update_error {f : Object → Except OpError Object} {e : OpError}
    (hobject : h.object o = .ok object) (hf : f object = .error e) :
    HeapM.update (·.updateObject o f) h = .error e h := by
  simp only [HeapM.update, updateObject, hobject, hf, bind, Except.bind]

/-- A new length resizes the array. -/
theorem setArrayLength_becomes (hobject : h.object o = .ok object) {n : Nat} (hn : n < UInt32.size)
    (hv : h.ConvertsTo v n) : h.Becomes o object (object.sparse.resize n)
    (setArrayLength o v h) := by
  obtain ⟨d, hd, heq⟩ := hv
  obtain ⟨hint, htr⟩ := Double.truncate_of_eq_ofNat hn heq
  have hlength : d.toUInt32.toNat = n := by
    have hfin : d.isFinite := by
      rw [Double.isIntegral, Bool.and_eq_true] at hint
      exact hint.1
    rw [Double.toUInt32, Double.toInt32, if_pos hfin, htr, Int32.ofInt_eq_ofNat,
      Int32.toUInt32_ofNat',
      UInt32.toNat_ofNat_of_lt' hn]
  rw [setArrayLength, HeapM.bind_ok (HeapM.look_ok hd), hlength, if_pos heq]
  refine ⟨_, update_ok hobject rfl, object.sparse_setLength n, ?_⟩
  unfold Object.setLength
  split <;> exact ⟨rfl, rfl, rfl⟩

theorem setArrayLength_refuses (hv : ∀ n < UInt32.size, ¬h.ConvertsTo v n) :
    h.Refuses (setArrayLength o v h) := by
  cases hd : h.toNumber v with
  | error e =>
    refine ⟨e, ?_⟩
    change EStateM.bind _ _ h = _
    rw [EStateM.bind, HeapM.look_run, hd]
  | ok d =>
    refine ⟨.invalidArrayLength, ?_⟩
    rw [setArrayLength, HeapM.bind_ok (HeapM.look_ok hd),
      if_neg fun heq => hv _ d.toUInt32.toNat_lt ⟨d, hd, heq⟩]
    rfl

/-- An array read sees what the array has, or what the prototype has. -/
theorem valueOf?_arrayElement? (hw : h.WellFormed) (hwf : object.WellFormed h) (i : Nat) :
    valueOf? (h.arrayElement? object i) =
      .ok (((object.sparse.get? i).or (h.protoValue? i)).getD .undefined) := by
  have hcell : ∀ c, h.arrayElement? object i = some c → ∃ v, c.decode = .ok v := fun c hc =>
    (hw.arrayElement? hwf hc).decode.imp fun _ hv => hv.1
  simp only [arrayElement?, Object.sparse, protoValue?] at hcell ⊢
  cases hown : object.element? i with
  | some c =>
    obtain ⟨v, hv⟩ := hcell c (by rw [hown]; rfl)
    simp [valueOf?, hv, Except.toOption]
  | none =>
    cases hproto : h.protoElement? i with
    | some c =>
      obtain ⟨v, hv⟩ := hcell c (by rw [hown, hproto]; rfl)
      simp [valueOf?, hv, Except.toOption]
    | none => rfl

/-- **Dense arrays implement sparse ones.** For an array of a well-formed heap: a write to an index
puts the value there if the index is below the capacity or the limit, and fails otherwise; a write to
the length resizes the array if the value converts to an integer of 32 bits, and fails otherwise; a
read of an index gives the value there, or the one of the prototype, or `undefined`; a read of the
length gives the length. A write that fails changes nothing, and one that succeeds nothing else. -/
theorem array_implements (hw : h.WellFormed) (hobject : h.object o = .ok object)
    (hcls : object.cls = .array) :
    (∀ i key, h.IsIndex i key →
      (∀ v, (i < max object.capacity maxDenseCapacity →
          h.Becomes o object (object.sparse.set i v) (setElement (.object o) key v h)) ∧
        (max object.capacity maxDenseCapacity ≤ i →
          h.Refuses (setElement (.object o) key v h))) ∧
      getElement (.object o) key h =
        .ok (((object.sparse.get? i).or (h.protoValue? i)).getD .undefined) h) ∧
    (∀ key, h.IsLength key →
      (∀ v, (∀ n < UInt32.size, h.ConvertsTo v n →
          h.Becomes o object (object.sparse.resize n) (setElement (.object o) key v h)) ∧
        ((∀ n < UInt32.size, ¬h.ConvertsTo v n) → h.Refuses (setElement (.object o) key v h))) ∧
      getElement (.object o) key h = .ok (.number (Double.ofNat object.sparse.length)) h) := by
  have hwf := hw.object hobject
  have hset : ∀ k key v, toPropertyKey key h = .ok k h → setElement (.object o) key v h =
      setObjectElement o k v h := fun k key v hkey => HeapM.bind_ok hkey
  have hget : ∀ k key, toPropertyKey key h = .ok k h → getElement (.object o) key h =
      objectElement o k h := fun k key hkey => HeapM.bind_ok hkey
  refine ⟨fun i key hkey => ⟨fun v => ?_, ?_⟩, fun key hkey => ⟨fun v => ?_, ?_⟩⟩
  · rw [hset _ _ v (toPropertyKey_of_isIndex hkey), setObjectElement, HeapM.bind_ok (HeapM.look_ok hobject)]
    simp only [hcls]
    refine ⟨fun hi => ?_, fun hi => ?_⟩
    · obtain ⟨object', hok, hsparse, hsame⟩ := Object.setElement_sparse v (hwf.array hcls).2.2 hi
      exact ⟨object', update_ok hobject hok, hsparse, hcls ▸ hsame⟩
    · obtain ⟨e, he⟩ := Object.setElement_refuses (c := v.toCell) hi
      exact ⟨e, update_error hobject he⟩
  · rw [hget _ _ (toPropertyKey_of_isIndex hkey), objectElement, HeapM.bind_ok (HeapM.look_ok hobject)]
    simp only [hcls]
    exact HeapM.look_ok (valueOf?_arrayElement? hw hwf i)
  · rw [hset _ _ v hkey, setObjectElement, HeapM.bind_ok (HeapM.look_ok hobject)]
    simp only [hcls, if_true]
    exact ⟨fun n hn hv => setArrayLength_becomes hobject hn hv, setArrayLength_refuses⟩
  · rw [hget _ _ hkey, objectElement, HeapM.bind_ok (HeapM.look_ok hobject)]
    simp only [hcls]
    rfl

/-- Writing past a gap of a small array, with a number as key. -/
theorem array_implements_gap :
    let h := (Heap.new.newArray #[.int32 1] 2).2
    let object := Object.array #[.int32 1] 2
    let five := Value.double ⟨0x4014000000000000⟩
    h.WellFormed ∧ h.object ⟨0⟩ = .ok object ∧ object.cls = .array ∧
    h.IsIndex 5 five ∧ 5 < max object.capacity maxDenseCapacity ∧
    h.Becomes ⟨0⟩ object (object.sparse.set 5 .null) (setElement (.object ⟨0⟩) five .null h) ∧
    h.IsLength (.string .length) ∧
    getElement (.object ⟨0⟩) (.string .length) h = .ok (.number (Double.ofNat 1)) h := by
  intro h object five
  have hw : h.WellFormed := (alloc_keeps new_wellFormed (Object.array_wellFormed new_wellFormed
    (fun v hv => by obtain rfl := Array.mem_singleton.1 hv; trivial) 2)).2
  have hlength : h.IsLength (.string .length) := by
    refine isLength_string ?_
    have hget : h.strings.get? 6 = some "length" := by
      change (Heap.new.strings.items)[6]? = _
      rw [← Array.getElem?_toList, items_new]
      decide
    rw [string, show h.strings.get? StrId.length.index.toNat = some "length" from hget]
  have hkey : h.IsIndex 5 five := ⟨by decide, by decide⟩
  have hlt : 5 < max object.capacity maxDenseCapacity :=
    Nat.lt_of_lt_of_le (by decide : 5 < maxDenseCapacity) (Nat.le_max_right _ _)
  have hobject : h.object ⟨0⟩ = .ok object := rfl
  obtain ⟨hindices, hlengths⟩ := array_implements hw hobject rfl
  exact ⟨hw, hobject, rfl, hkey, hlt, ((hindices 5 five hkey).1 .null).1 hlt, hlength,
    (hlengths _ hlength).2⟩

end Heap

end FastPath
