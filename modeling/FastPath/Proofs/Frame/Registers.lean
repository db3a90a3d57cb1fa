import FastPath.Frame.Registers

/-!
# What the register file remembers

Every operation of the register file is described by what it does to two views of a
register: its binding and whether it is pinned. The clock decides which register is
evicted and is invisible otherwise.

## Main results

* `RegisterFile.binding_bind` and its companions: the effect of each update on both views.
* `RegisterFile.take?_eq_some`: a register that is handed out was free and not pinned.
* `RegisterFile.victim?_eq_some`: an evicted register holds a slot and is not pinned.
-/

namespace FastPath

namespace Bank

variable {n : Nat}

/-- The state of a register after an update. -/
theorem getElem?_update (b : Bank n) (i j : Nat) (g : RegState → RegState) :
    (b.update i g)[j]? = if i = j then b[j]?.map g else b[j]? := by
  unfold update
  by_cases hi : i < n
  · rw [Vector.getElem?_eq_getElem hi]
    simp only [Vector.getElem?_setIfInBounds]
    by_cases hij : i = j
    · subst hij
      simp [hi]
    · simp [hij]
  · have hnone : b[i]? = none := by
      simp only [Vector.getElem?_eq_none_iff]
      omega
    rw [hnone]
    by_cases hij : i = j
    · subst hij
      simp [hnone]
    · simp [hij]

variable {b : Bank n} {i : Nat}

/-- A register that holds something exists. -/
theorem lt_of_binding_ne_free (h : b.binding i ≠ .free) : i < n := by
  by_cases hi : i < n
  · exact hi
  · have hnone : b[i]? = none := by
      simp only [Vector.getElem?_eq_none_iff]
      omega
    exact absurd (by simp [binding, hnone]) h

/-- An update that sets the binding sets it where the register exists. -/
theorem binding_update_set (b : Bank n) (i j : Nat) (x : Binding) (t : Nat) :
    (b.update i fun s => { s with binding := x, lastUse := t }).binding j =
      if i = j ∧ i < n then x else b.binding j := by
  simp only [binding, getElem?_update]
  by_cases hij : i = j
  · subst hij
    by_cases hi : i < n
    · simp [hi]
    · simp [hi]
  · simp [hij]

/-- An update that leaves the binding alone leaves every binding alone. -/
theorem binding_update_of (b : Bank n) (i j : Nat) (g : RegState → RegState)
    (hg : ∀ s, (g s).binding = s.binding) : (b.update i g).binding j = b.binding j := by
  simp only [binding, getElem?_update]
  by_cases hij : i = j
  · subst hij
    cases b[i]? <;> simp [hg]
  · simp [hij]

/-- An update that leaves the pin alone leaves every pin alone. -/
theorem isPinned_update_of (b : Bank n) (i j : Nat) (g : RegState → RegState)
    (hg : ∀ s, (g s).pinned = s.pinned) : (b.update i g).isPinned j = b.isPinned j := by
  simp only [isPinned, getElem?_update]
  by_cases hij : i = j
  · subst hij
    cases b[i]? <;> simp [hg]
  · simp [hij]

/-- An update that sets the pin sets it where the register exists. -/
theorem isPinned_update_set (b : Bank n) (i j : Nat) (p : Bool) :
    (b.update i fun s => { s with pinned := p }).isPinned j =
      if i = j ∧ i < n then p else b.isPinned j := by
  simp only [isPinned, getElem?_update]
  by_cases hij : i = j
  · subst hij
    by_cases hi : i < n
    · simp [hi]
    · simp [hi]
  · simp [hij]

@[simp] theorem binding_unused (i : Nat) : (unused : Bank n).binding i = .free := by
  by_cases hi : i < n <;> simp [binding, unused, RegState.unused, hi]

@[simp] theorem isPinned_unused (i : Nat) : (unused : Bank n).isPinned i = false := by
  by_cases hi : i < n <;> simp [isPinned, unused, RegState.unused, hi]

/-- The first available register exists, is free and is not pinned. -/
theorem firstAvailable?_eq_some (h : b.firstAvailable? = some i) :
    i < n ∧ b.binding i = .free ∧ b.isPinned i = false := by
  obtain ⟨hi, hp, -⟩ := List.findIdx?_eq_some_iff_getElem.1 h
  have hn : i < n := by simpa using hi
  simp only [RegState.isAvailable, Bool.and_eq_true, decide_eq_true_eq, Bool.not_eq_true',
    Vector.getElem_toList] at hp
  simp [binding, isPinned, hn, hp]

/-- Folding with `older` gives one of the states it is given. -/
theorem foldl_older_mem (s : RegState × Nat) (ss : List (RegState × Nat)) :
    ss.foldl older s ∈ s :: ss := by
  induction ss generalizing s with
  | nil => simp
  | cons t ts ih =>
    have hmem := ih (older s t)
    simp only [List.foldl_cons, List.mem_cons] at hmem ⊢
    rcases hmem with hmem | hmem
    · rw [hmem, older]
      split <;> simp
    · simp [hmem]

/-- The register that is used least recently exists, satisfies the predicate and is not
pinned. -/
theorem oldest?_eq_some {p : Binding → Bool} (h : b.oldest? p = some i) :
    i < n ∧ p (b.binding i) ∧ b.isPinned i = false := by
  unfold oldest? at h
  split at h
  · cases h
  · next s ss hs =>
    obtain ⟨hmem, hp⟩ := List.mem_filter.1 (hs ▸ foldl_older_mem s ss)
    generalize ss.foldl older s = q at h hmem hp
    obtain ⟨state, j⟩ := q
    obtain rfl : j = i := Option.some.inj h
    obtain ⟨hlt, hstate⟩ := List.mem_zipIdx' hmem
    have hn : j < n := by simpa using hlt
    simp only [hstate, Bool.and_eq_true, Bool.not_eq_true', Vector.getElem_toList] at hp
    simp [binding, isPinned, hn, hp]

end Bank

theorem Reg.eq_iff {r r' : Reg} : r = r' ↔ r.index = r'.index := by
  cases r
  cases r'
  simp

theorem FReg.eq_iff {r r' : FReg} : r = r' ↔ r.index = r'.index := by
  cases r
  cases r'
  simp

namespace RegisterFile

/-! ### General registers -/

section

variable (f : RegisterFile)

@[simp, grind =] theorem binding_bind (r r' : Reg) (b : Binding) :
    (f.bind r b).binding r' = if r = r' ∧ r.index < Reg.count then b else f.binding r' := by
  simp only [binding, bind, Bank.binding_update_set, Reg.eq_iff]

@[simp, grind =] theorem isPinned_bind (r r' : Reg) (b : Binding) :
    (f.bind r b).isPinned r' = f.isPinned r' :=
  Bank.isPinned_update_of _ _ _ _ fun _ => rfl

@[simp, grind =] theorem fbinding_bind (r : Reg) (r' : FReg) (b : Binding) :
    (f.bind r b).fbinding r' = f.fbinding r' :=
  rfl

@[simp, grind =] theorem isFPinned_bind (r : Reg) (r' : FReg) (b : Binding) :
    (f.bind r b).isFPinned r' = f.isFPinned r' :=
  rfl

@[simp, grind =] theorem binding_touch (r r' : Reg) : (f.touch r).binding r' = f.binding r' :=
  Bank.binding_update_of _ _ _ _ fun _ => rfl

@[simp, grind =] theorem isPinned_touch (r r' : Reg) : (f.touch r).isPinned r' = f.isPinned r' :=
  Bank.isPinned_update_of _ _ _ _ fun _ => rfl

@[simp, grind =] theorem fbinding_touch (r : Reg) (r' : FReg) :
    (f.touch r).fbinding r' = f.fbinding r' :=
  rfl

@[simp, grind =] theorem isFPinned_touch (r : Reg) (r' : FReg) :
    (f.touch r).isFPinned r' = f.isFPinned r' :=
  rfl

@[simp, grind =] theorem binding_setPinned (r r' : Reg) (p : Bool) :
    (f.setPinned r p).binding r' = f.binding r' :=
  Bank.binding_update_of _ _ _ _ fun _ => rfl

@[simp, grind =] theorem isPinned_setPinned (r r' : Reg) (p : Bool) :
    (f.setPinned r p).isPinned r' =
      if r = r' ∧ r.index < Reg.count then p else f.isPinned r' := by
  simp only [isPinned, setPinned, Bank.isPinned_update_set, Reg.eq_iff]

@[simp, grind =] theorem fbinding_setPinned (r : Reg) (r' : FReg) (p : Bool) :
    (f.setPinned r p).fbinding r' = f.fbinding r' :=
  rfl

@[simp, grind =] theorem isFPinned_setPinned (r : Reg) (r' : FReg) (p : Bool) :
    (f.setPinned r p).isFPinned r' = f.isFPinned r' :=
  rfl

end

variable {f g : RegisterFile} {r : FReg}

/-- A register that holds something exists. -/
theorem lt_of_binding_ne_free {r : Reg} (h : f.binding r ≠ .free) : r.index < Reg.count :=
  Bank.lt_of_binding_ne_free h

theorem lt_of_binding {r : Reg} {b : Binding} (h : f.binding r = b)
    (hb : decide (b = .free) = false) : r.index < Reg.count :=
  lt_of_binding_ne_free (h ▸ of_decide_eq_false hb)

/-- A register that is handed out was free and not pinned, and becomes a temporary. -/
theorem take?_eq_some {r : Reg} (h : f.take? = some (r, g)) :
    r.index < Reg.count ∧ f.binding r = .free ∧ f.isPinned r = false ∧ g = f.bind r .temp := by
  unfold take? at h
  obtain ⟨i, hi, heq⟩ := Option.map_eq_some_iff.1 h
  obtain ⟨rfl, rfl⟩ := Prod.mk.inj heq
  obtain ⟨hlt, hfree, hpin⟩ := Bank.firstAvailable?_eq_some hi
  exact ⟨hlt, hfree, hpin, rfl⟩

/-- An evicted register holds a slot and is not pinned. -/
theorem victim?_eq_some {r : Reg} (h : f.victim? = some r) :
    r.index < Reg.count ∧ (f.binding r).slot?.isSome ∧ f.isPinned r = false := by
  unfold victim? at h
  obtain ⟨i, hi, rfl⟩ := Option.map_eq_some_iff.1 h
  exact Bank.oldest?_eq_some hi

/-! ### Double registers -/

section

variable (f : RegisterFile)

@[simp, grind =] theorem fbinding_fbind (r r' : FReg) (b : Binding) :
    (f.fbind r b).fbinding r' =
      if r = r' ∧ r.index < FReg.allocatable then b else f.fbinding r' := by
  simp only [fbinding, fbind, Bank.binding_update_set, FReg.eq_iff]

@[simp, grind =] theorem isFPinned_fbind (r r' : FReg) (b : Binding) :
    (f.fbind r b).isFPinned r' = f.isFPinned r' :=
  Bank.isPinned_update_of _ _ _ _ fun _ => rfl

@[simp, grind =] theorem binding_fbind (r : FReg) (r' : Reg) (b : Binding) :
    (f.fbind r b).binding r' = f.binding r' :=
  rfl

@[simp, grind =] theorem isPinned_fbind (r : FReg) (r' : Reg) (b : Binding) :
    (f.fbind r b).isPinned r' = f.isPinned r' :=
  rfl

@[simp, grind =] theorem fbinding_ftouch (r r' : FReg) : (f.ftouch r).fbinding r' = f.fbinding r' :=
  Bank.binding_update_of _ _ _ _ fun _ => rfl

@[simp, grind =] theorem isFPinned_ftouch (r r' : FReg) :
    (f.ftouch r).isFPinned r' = f.isFPinned r' :=
  Bank.isPinned_update_of _ _ _ _ fun _ => rfl

@[simp, grind =] theorem binding_ftouch (r : FReg) (r' : Reg) :
    (f.ftouch r).binding r' = f.binding r' :=
  rfl

@[simp, grind =] theorem isPinned_ftouch (r : FReg) (r' : Reg) :
    (f.ftouch r).isPinned r' = f.isPinned r' :=
  rfl

@[simp, grind =] theorem fbinding_setFPinned (r r' : FReg) (p : Bool) :
    (f.setFPinned r p).fbinding r' = f.fbinding r' :=
  Bank.binding_update_of _ _ _ _ fun _ => rfl

@[simp, grind =] theorem isFPinned_setFPinned (r r' : FReg) (p : Bool) :
    (f.setFPinned r p).isFPinned r' =
      if r = r' ∧ r.index < FReg.allocatable then p else f.isFPinned r' := by
  simp only [isFPinned, setFPinned, Bank.isPinned_update_set, FReg.eq_iff]

@[simp, grind =] theorem binding_setFPinned (r : FReg) (r' : Reg) (p : Bool) :
    (f.setFPinned r p).binding r' = f.binding r' :=
  rfl

@[simp, grind =] theorem isPinned_setFPinned (r : FReg) (r' : Reg) (p : Bool) :
    (f.setFPinned r p).isPinned r' = f.isPinned r' :=
  rfl

end

/-- A double register that holds something can be handed out. -/
theorem lt_of_fbinding_ne_free (h : f.fbinding r ≠ .free) : r.index < FReg.allocatable :=
  Bank.lt_of_binding_ne_free h

theorem lt_of_fbinding {b : Binding} (h : f.fbinding r = b)
    (hb : decide (b = .free) = false) : r.index < FReg.allocatable :=
  lt_of_fbinding_ne_free (h ▸ of_decide_eq_false hb)

/-- A double register that is handed out was free and not pinned, and becomes a
temporary. -/
theorem ftake?_eq_some (h : f.ftake? = some (r, g)) :
    r.index < FReg.allocatable ∧ f.fbinding r = .free ∧ f.isFPinned r = false ∧
      g = f.fbind r .temp := by
  unfold ftake? at h
  obtain ⟨i, hi, heq⟩ := Option.map_eq_some_iff.1 h
  obtain ⟨rfl, rfl⟩ := Prod.mk.inj heq
  obtain ⟨hlt, hfree, hpin⟩ := Bank.firstAvailable?_eq_some hi
  exact ⟨hlt, hfree, hpin, rfl⟩

/-- An evicted double register holds a slot and is not pinned. -/
theorem fvictim?_eq_some (h : f.fvictim? = some r) :
    r.index < FReg.allocatable ∧ (f.fbinding r).isData ∧ f.isFPinned r = false := by
  unfold fvictim? at h
  obtain ⟨i, hi, rfl⟩ := Option.map_eq_some_iff.1 h
  exact Bank.oldest?_eq_some hi

/-! ### Resetting -/

@[simp, grind =] theorem binding_reset (f : RegisterFile) (r : Reg) : f.reset.binding r = .free :=
  Bank.binding_unused _

@[simp, grind =] theorem fbinding_reset (f : RegisterFile) (r : FReg) :
    f.reset.fbinding r = .free :=
  Bank.binding_unused _

@[simp, grind =] theorem isPinned_reset (f : RegisterFile) (r : Reg) :
    f.reset.isPinned r = false :=
  Bank.isPinned_unused _

@[simp, grind =] theorem isFPinned_reset (f : RegisterFile) (r : FReg) :
    f.reset.isFPinned r = false :=
  Bank.isPinned_unused _

@[simp] theorem binding_new (r : Reg) : new.binding r = .free := Bank.binding_unused _

@[simp] theorem fbinding_new (r : FReg) : new.fbinding r = .free := Bank.binding_unused _

/-! ### Counts -/

theorem mem_of_binding {n : Nat} {b : Bank n} {i : Nat} {x : Binding} (h : b.binding i = x)
    (hx : x ≠ .free) : ∃ s ∈ b.toList, s.binding = x := by
  unfold Bank.binding at h
  cases hs : b[i]? with
  | none =>
    rw [hs] at h
    exact absurd h.symm hx
  | some s =>
    rw [hs] at h
    exact ⟨s, by simpa using Vector.mem_of_getElem? hs, h⟩

/-- Where no temporary is counted, none is bound. -/
theorem binding_ne_temp (h : f.tempCount = 0) (r : Reg) : f.binding r ≠ .temp := by
  intro hr
  obtain ⟨s, hs, hb⟩ := mem_of_binding hr (by simp)
  have := List.countP_eq_zero.1 h s (List.mem_append_left _ hs)
  simp [hb] at this

theorem fbinding_ne_temp (h : f.tempCount = 0) (r : FReg) : f.fbinding r ≠ .temp := by
  intro hr
  obtain ⟨s, hs, hb⟩ := mem_of_binding hr (by simp)
  have := List.countP_eq_zero.1 h s (List.mem_append_right _ hs)
  simp [hb] at this

end RegisterFile

end FastPath
