import FastPath.Proofs.Frame.Alloc
import Mathlib.Data.List.Perm.Subperm

/-!
# Registers on loan

An emitter borrows registers from the tracker: temporaries, which it has to give back or
push, and pins, which it has to undo. How many it has on loan decides whether the next
allocation can succeed. `Loans` lists them, together with those that are known to have
contents, and `RegisterFile.Lends` says that the lists are exact.

Whether an operation succeeds and what it does to the loans does not depend on any
machine, so it is stated apart from what its code does: `FrameM.Succeeds` is about the
frame alone.

## Main results

* `FrameM.succeeds_bind` and its companions: one rule for each way to build an operation.
* `FrameM.alloc_succeeds`, `FrameM.allocDouble_succeeds`: allocation succeeds as long as
  some register is not on loan.
-/

namespace FastPath

open RegisterFile

/-! ### Loans -/

/-- The registers that an emitter has on loan. -/
structure Loans where
  temps : List Reg
  pins : List Reg
  /-- Temporaries that have contents. -/
  full : List Reg
  ftemps : List FReg
  fpins : List FReg
  /-- Double temporaries that have contents. -/
  ffull : List FReg

namespace Loans

/-- Nothing on loan. -/
def none : Loans := ⟨[], [], [], [], [], []⟩

/-- General registers that cannot be handed out. -/
def count (L : Loans) : Nat := L.temps.length + L.pins.length

/-- Double registers that cannot be handed out. -/
def fcount (L : Loans) : Nat := L.ftemps.length + L.fpins.length

/-- One more temporary. -/
def addTemp (L : Loans) (r : Reg) : Loans := { L with temps := r :: L.temps }

/-- One more double temporary. -/
def addFTemp (L : Loans) (r : FReg) : Loans := { L with ftemps := r :: L.ftemps }

/-- One more temporary, if there is one. -/
def addTemp? (L : Loans) (r : Option Reg) : Loans := { L with temps := r.toList ++ L.temps }

/-- One more double temporary, if there is one. -/
def addFTemp? (L : Loans) (r : Option FReg) : Loans := { L with ftemps := r.toList ++ L.ftemps }

/-- More pins. -/
def addPins (L : Loans) (rs : List Reg) : Loans := { L with pins := rs ++ L.pins }

/-- More pins of double registers. -/
def addFPins (L : Loans) (rs : List FReg) : Loans := { L with fpins := rs ++ L.fpins }

/-- Fewer pins. -/
def dropPins (L : Loans) (rs : List Reg) : Loans :=
  { L with pins := L.pins.filter (· ∉ rs) }

/-- Fewer pins of double registers. -/
def dropFPins (L : Loans) (rs : List FReg) : Loans :=
  { L with fpins := L.fpins.filter (· ∉ rs) }

/-- One temporary less. -/
def dropTemp (L : Loans) (r : Reg) : Loans :=
  { L with temps := L.temps.filter (· ≠ r), full := L.full.filter (· ≠ r) }

/-- One double temporary less. -/
def dropFTemp (L : Loans) (r : FReg) : Loans :=
  { L with ftemps := L.ftemps.filter (· ≠ r), ffull := L.ffull.filter (· ≠ r) }

/-- Fewer double temporaries. -/
def dropFTemps (L : Loans) (rs : List FReg) : Loans :=
  { L with ftemps := L.ftemps.filter (· ∉ rs), ffull := L.ffull.filter (· ∉ rs) }

/-- One temporary less, if there is one. -/
def dropTemp? (L : Loans) (r : Option Reg) : Loans :=
  { L with temps := L.temps.filter (some · ≠ r), full := L.full.filter (some · ≠ r) }

/-- One double temporary less, if there is one. -/
def dropFTemp? (L : Loans) (r : Option FReg) : Loans :=
  { L with ftemps := L.ftemps.filter (some · ≠ r), ffull := L.ffull.filter (some · ≠ r) }

/-- Pin the registers of a value. -/
def pinSource (L : Loans) : Source → Loans
  | .constant _ => L
  | .typed _ payload => L.addPins [payload]
  | .regs tag payload => (L.addPins [tag]).addPins [payload]
  | .double r => L.addFPins [r]

/-- Unpin the registers of a value. -/
def unpinSource (L : Loans) : Source → Loans
  | .constant _ => L
  | .typed _ payload => L.dropPins [payload]
  | .regs tag payload => (L.dropPins [tag]).dropPins [payload]
  | .double r => L.dropFPins [r]

@[simp] theorem count_none : none.count = 0 := rfl

@[simp] theorem fcount_none : none.fcount = 0 := rfl

variable (L : Loans)

theorem dropTemp?_some (r : Reg) : L.dropTemp? (some r) = L.dropTemp r := by
  simp [dropTemp?, dropTemp]

theorem dropTemp?_none : L.dropTemp? Option.none = L := by
  simp [dropTemp?]

theorem dropFTemp?_some (r : FReg) : L.dropFTemp? (some r) = L.dropFTemp r := by
  simp [dropFTemp?, dropFTemp]

theorem dropFTemp?_none : L.dropFTemp? Option.none = L := by
  simp [dropFTemp?]

@[simp] theorem count_addTemp (r : Reg) : (L.addTemp r).count = L.count + 1 := by
  simp only [count, addTemp, List.length_cons]
  omega

@[simp] theorem fcount_addTemp (r : Reg) : (L.addTemp r).fcount = L.fcount := rfl

@[simp] theorem count_addFTemp (r : FReg) : (L.addFTemp r).count = L.count := rfl

@[simp] theorem fcount_addFTemp (r : FReg) : (L.addFTemp r).fcount = L.fcount + 1 := by
  simp only [fcount, addFTemp, List.length_cons]
  omega

@[simp] theorem count_addPins (rs : List Reg) : (L.addPins rs).count = L.count + rs.length := by
  simp only [count, addPins, List.length_append]
  omega

@[simp] theorem fcount_addPins (rs : List Reg) : (L.addPins rs).fcount = L.fcount := rfl

@[simp] theorem count_addFPins (rs : List FReg) : (L.addFPins rs).count = L.count := rfl

@[simp] theorem fcount_addFPins (rs : List FReg) :
    (L.addFPins rs).fcount = L.fcount + rs.length := by
  simp only [fcount, addFPins, List.length_append]
  omega

end Loans

/-- The register file has exactly these registers on loan. -/
structure RegisterFile.Lends (g : RegisterFile) (L : Loans) : Prop where
  temp : ∀ r, g.binding r = .temp ↔ r ∈ L.temps
  pinned : ∀ r, g.isPinned r ↔ r ∈ L.pins
  ftemp : ∀ r, g.fbinding r = .temp ↔ r ∈ L.ftemps
  fpinned : ∀ r, g.isFPinned r ↔ r ∈ L.fpins

/-! ### Something to hand out -/

namespace Bank

variable {n : Nat} {b : Bank n} {i : Nat}

theorem firstAvailable?_isSome (hi : i < n) (hb : b.binding i = .free)
    (hp : b.isPinned i = false) : b.firstAvailable?.isSome := by
  simp only [binding, isPinned, Vector.getElem?_eq_getElem hi, Option.map_some,
    Option.getD_some] at hb hp
  rw [firstAvailable?, List.findIdx?_isSome, List.any_eq_true]
  refine ⟨b[i], by simp, ?_⟩
  simp [RegState.isAvailable, hb, hp]

theorem oldest?_isSome {p : Binding → Bool} (hi : i < n) (hb : p (b.binding i))
    (hp : b.isPinned i = false) : (b.oldest? p).isSome := by
  simp only [binding, isPinned, Vector.getElem?_eq_getElem hi, Option.map_some,
    Option.getD_some] at hb hp
  unfold oldest?
  split
  · next h =>
    have hmem : (b[i], i) ∈ ([] : List (RegState × Nat)) := by
      rw [← h, List.mem_filter, List.mem_zipIdx_iff_getElem?]
      simp [hi, hb, hp]
    cases hmem
  · rfl

end Bank

/-- A list of fewer than `n` numbers misses one below `n`. -/
theorem exists_lt_not_mem {n : Nat} {l : List Nat} (h : l.length < n) : ∃ i, i < n ∧ i ∉ l := by
  by_contra hall
  have hsub : List.range n ⊆ l := by
    intro i hi
    by_contra hmem
    exact hall ⟨i, List.mem_range.1 hi, hmem⟩
  have hlen := (List.nodup_range.subperm hsub).length_le
  rw [List.length_range] at hlen
  exact absurd hlen (Nat.not_le_of_lt h)

namespace RegisterFile

variable {g : RegisterFile} {L : Loans}

theorem Lends.exists_not_held (h : g.Lends L) (hroom : L.count < Reg.count) :
    ∃ r : Reg, r.index < Reg.count ∧ ¬ g.Held r := by
  obtain ⟨i, hi, hmem⟩ := exists_lt_not_mem (n := Reg.count)
    (l := (L.temps ++ L.pins).map Reg.index) (by simpa [Loans.count] using hroom)
  refine ⟨⟨i⟩, hi, fun hheld => hmem (List.mem_map.2 ⟨⟨i⟩, ?_, rfl⟩)⟩
  rcases hheld with ht | hp
  · exact List.mem_append_left _ ((h.temp _).1 ht)
  · exact List.mem_append_right _ ((h.pinned _).1 hp)

/-- Some double register is not on loan. -/
theorem Lends.exists_not_fheld (h : g.Lends L) (hroom : L.fcount < FReg.allocatable) :
    ∃ r : FReg, r.index < FReg.allocatable ∧ ¬ g.FHeld r := by
  obtain ⟨i, hi, hmem⟩ := exists_lt_not_mem (n := FReg.allocatable)
    (l := (L.ftemps ++ L.fpins).map FReg.index) (by simpa [Loans.fcount] using hroom)
  refine ⟨⟨i⟩, hi, fun hheld => hmem (List.mem_map.2 ⟨⟨i⟩, ?_, rfl⟩)⟩
  rcases hheld with ht | hp
  · exact List.mem_append_left _ ((h.ftemp _).1 ht)
  · exact List.mem_append_right _ ((h.fpinned _).1 hp)

/-- As long as a register is not on loan, one is available or can be evicted. -/
theorem take?_or_victim? {r : Reg} (hr : r.index < Reg.count) (hheld : ¬ g.Held r) :
    g.take?.isSome ∨ g.victim?.isSome := by
  have hp : g.isPinned r = false := by
    cases hp : g.isPinned r with
    | false => rfl
    | true => exact absurd (.inr hp) hheld
  cases hb : g.binding r with
  | temp => exact absurd (.inl hb) hheld
  | free =>
    refine .inl ?_
    rw [take?, Option.isSome_map]
    exact Bank.firstAvailable?_isSome hr hb hp
  | data s | tag s =>
    refine .inr ?_
    rw [victim?, Option.isSome_map]
    exact Bank.oldest?_isSome hr (by change ((g.binding r).slot?).isSome = true; rw [hb]; rfl) hp

/-- A double register that nobody holds is free or can be freed. -/
theorem ftake?_or_fvictim? {r : FReg} (hr : r.index < FReg.allocatable) (hheld : ¬ g.FHeld r)
    (htag : ∀ s, g.fbinding r ≠ .tag s) : g.ftake?.isSome ∨ g.fvictim?.isSome := by
  have hp : g.isFPinned r = false := by
    cases hp : g.isFPinned r with
    | false => rfl
    | true => exact absurd (.inr hp) hheld
  cases hb : g.fbinding r with
  | temp => exact absurd (.inl hb) hheld
  | tag s => exact absurd hb (htag s)
  | free =>
    refine .inl ?_
    rw [ftake?, Option.isSome_map]
    exact Bank.firstAvailable?_isSome hr hb hp
  | data s =>
    refine .inr ?_
    rw [fvictim?, Option.isSome_map]
    exact Bank.oldest?_isSome hr (by change (g.fbinding r).isData = true; rw [hb]; rfl) hp

end RegisterFile

/-! ### Success -/

namespace FrameM

variable {α β : Type} {f : Frame}

/-- The operation succeeds on the frame, and the result and the new frame are as stated. -/
def Succeeds (x : FrameM α) (f : Frame) (R : α → Frame → Prop) : Prop :=
  ∀ code, ∃ a s', x ⟨f, code⟩ = .ok a s' ∧ R a s'.frame

variable {x : FrameM α} {R : α → Frame → Prop}

theorem Succeeds.mono {R' : α → Frame → Prop} (h : Succeeds x f R) (hR : ∀ a f', R a f' → R' a f') :
    Succeeds x f R' := by
  intro code
  obtain ⟨a, s', hx, hr⟩ := h code
  exact ⟨a, s', hx, hR _ _ hr⟩

theorem succeeds_pure {a : α} (h : R a f) : Succeeds (pure a) f R :=
  fun _ => ⟨a, _, rfl, h⟩

theorem succeeds_bind {k : α → FrameM β} {R : β → Frame → Prop}
    (h : Succeeds x f fun a f' => Succeeds (k a) f' R) : Succeeds (x >>= k) f R := by
  intro code
  obtain ⟨a, s', hx, hk⟩ := h code
  obtain ⟨b, s'', hy, hr⟩ := hk s'.code
  exact ⟨b, s'', by rw [bind_run, hx]; exact hy, hr⟩

theorem succeeds_frame {R : Frame → Frame → Prop} (h : R f f) : Succeeds frame f R :=
  fun _ => ⟨f, _, rfl, h⟩

theorem succeeds_update {g : Frame → Frame} {R : Unit → Frame → Prop} (h : R () (g f)) :
    Succeeds (update g) f R :=
  fun _ => ⟨(), _, rfl, h⟩

theorem succeeds_updateRegs {g : RegisterFile → RegisterFile} {R : Unit → Frame → Prop}
    (h : R () (f.mapRegs g)) : Succeeds (updateRegs g) f R :=
  succeeds_update h

theorem succeeds_look {k : Frame → FrameM β} {R : β → Frame → Prop} (h : Succeeds (k f) f R) :
    Succeeds (frame >>= k) f R :=
  succeeds_bind (succeeds_frame h)

theorem succeeds_regs {g : RegisterFile → RegisterFile} {k : Unit → FrameM β}
    {R : β → Frame → Prop} (h : Succeeds (k ()) (f.mapRegs g) R) :
    Succeeds (updateRegs g >>= k) f R :=
  succeeds_bind (succeeds_updateRegs h)

theorem succeeds_emit {i : Inst} {R : Unit → Frame → Prop} (h : R () f) :
    Succeeds (emit i) f R :=
  fun _ => ⟨(), _, rfl, h⟩

theorem succeeds_emitAll {is : List Inst} {R : Unit → Frame → Prop} (h : R () f) :
    Succeeds (emitAll is) f R :=
  fun _ => ⟨(), _, rfl, h⟩

theorem succeeds_marked {held : RegisterFile → Bool} {set clear : RegisterFile → RegisterFile}
    (h : Succeeds x (f.mapRegs set) fun a f' =>
      R a (if held f.regs then f' else f'.mapRegs clear)) :
    Succeeds (marked held set clear x) f R := by
  intro code
  obtain ⟨a, s, hx, hr⟩ := h code
  refine ⟨a, if held f.regs then s else ⟨s.frame.mapRegs clear, s.code⟩, ?_, ?_⟩
  · simp only [marked, hx]
  · rw [apply_ite Emission.frame]
    exact hr

/-- What an operation that succeeds ensures. -/
theorem Succeeds.ensures {m : Machine} {Q : α → Frame → Machine → Prop} (hs : Succeeds x f R)
    (he : Ensures x f m Q) : Succeeds x f fun a f' => R a f' ∧ ∃ m', Q a f' m' := by
  intro code
  obtain ⟨a, s', hx, hr⟩ := hs code
  obtain ⟨is, m', -, -, hq⟩ := he code a s' hx
  exact ⟨a, s', hx, hr, m', hq⟩

/-! ### Evicting and allocating -/

variable {dead : Option Slot} {L : Loans}

/-- What evicting a register does to the frame. -/
theorem evict_succeeds (h : f.Sound dead) {r : Reg} (hr : (f.regs.binding r).slot?.isSome) :
    Succeeds (evict r) f fun _ f' =>
      f'.regs = f.regs.bind r .free ∧ f.SameView f' ∧ f.Unloads f' := by
  intro code
  unfold evict
  rw [bind_run, frame_run]
  cases hb : f.regs.binding r with
  | free | temp => simp [hb, Binding.slot?] at hr
  | data s =>
    obtain ⟨hl, hdata, -⟩ := h.own_of_data hb
    have hs : s < f.entries.size := Nat.lt_of_lt_of_le hl.1 h.sp_le
    simp only [hb, bind_run, evictData_run hs hdata, update_run]
    refine ⟨(), _, rfl, rfl, ⟨rfl, rfl, rfl, rfl, rfl, rfl, ?_, ?_, ?_, ?_⟩, ?_, ?_, ?_, ?_⟩
    all_goals
      intro s'
      grind [evictedData]
  | tag s =>
    obtain ⟨hl, htag, -⟩ := h.own_of_tag hb
    have htype := h.tag_type s r hl htag
    simp only [hb, bind_run, evictTag_run htag htype, update_run]
    refine ⟨(), _, rfl, rfl, ⟨rfl, rfl, rfl, rfl, rfl, rfl, ?_, ?_, ?_, ?_⟩, ?_, ?_, ?_, ?_⟩
    all_goals
      intro s'
      grind [evictedTag]

/-- A double register of a slot can be freed. -/
theorem evictDouble_succeeds {r : FReg} {s : Slot}
    (hr : f.regs.fbinding r = .data s) :
    Succeeds (evictDouble r) f fun _ f' =>
      f'.regs = f.regs.fbind r .free ∧ f.SameView f' ∧ f.Unloads f' := by
  unfold evictDouble
  apply succeeds_look
  simp only [hr]
  apply succeeds_look
  have key : Succeeds (update fun f => ((f.update s fun e =>
      { e with data := .memory }.synced).mapRegs (·.fbind r .free)).bumpGeneration) f fun _ f' =>
      f'.regs = f.regs.fbind r .free ∧ f.SameView f' ∧ f.Unloads f' := by
    apply succeeds_update
    refine ⟨rfl, ⟨rfl, rfl, rfl, rfl, rfl, rfl, ?_, ?_, ?_, ?_⟩, ?_, ?_, ?_, ?_⟩
    all_goals
      intro s'
      grind [Entry.synced]
  split
  · exact key
  · exact succeeds_bind (succeeds_emit key)

end FrameM

namespace RegisterFile.Lends

variable {g : RegisterFile} {L : Loans}

theorem addTemp (h : g.Lends L) {r : Reg} (hr : r.index < Reg.count) :
    (g.bind r .temp).Lends (L.addTemp r) := by
  obtain ⟨h₁, h₂, h₃, h₄⟩ := h
  constructor <;> grind [Loans.addTemp]

variable {r : FReg} {b : Binding}

theorem addFTemp (h : g.Lends L) (hr : r.index < FReg.allocatable) :
    (g.fbind r .temp).Lends (L.addFTemp r) := by
  obtain ⟨h₁, h₂, h₃, h₄⟩ := h
  constructor <;> grind [Loans.addFTemp]

/-- Registers that are no temporaries may change hands. -/
theorem bind (h : g.Lends L) {r : Reg} (hr : g.binding r ≠ .temp) (hb : b ≠ .temp) :
    (g.bind r b).Lends L := by
  obtain ⟨h₁, h₂, h₃, h₄⟩ := h
  constructor <;> grind

theorem fbind (h : g.Lends L) (hr : g.fbinding r ≠ .temp) (hb : b ≠ .temp) :
    (g.fbind r b).Lends L := by
  obtain ⟨h₁, h₂, h₃, h₄⟩ := h
  constructor <;> grind

/-- A temporary that is given a binding is no longer on loan. -/
theorem dropTemp {r : Reg} (h : g.Lends (L.addTemp r)) (hr : r ∉ L.temps) (hb : b ≠ .temp)
    (hlt : r.index < Reg.count) : (g.bind r b).Lends L := by
  obtain ⟨h₁, h₂, h₃, h₄⟩ := h
  constructor <;> grind [Loans.addTemp]

theorem dropFTemp (h : g.Lends (L.addFTemp r)) (hr : r ∉ L.ftemps) (hb : b ≠ .temp)
    (hlt : r.index < FReg.allocatable) : (g.fbind r b).Lends L := by
  obtain ⟨h₁, h₂, h₃, h₄⟩ := h
  constructor <;> grind [Loans.addFTemp]

end RegisterFile.Lends

namespace FrameM

variable {f : Frame} {dead : Option Slot} {L : Loans}

/-- Allocation succeeds as long as some register is not on loan. It does not touch the double
registers. -/
theorem alloc_succeeds (h : f.Sound dead) (hL : f.regs.Lends L) (hroom : L.count < Reg.count) :
    Succeeds alloc f fun r f' => f'.regs.Lends (L.addTemp r) ∧ r.index < Reg.count ∧
      ¬ f.regs.Held r ∧ f.SameView f' ∧ f.Unloads f' ∧ f'.regs.fregs = f.regs.fregs := by
  obtain ⟨r₀, hr₀, hheld₀⟩ := hL.exists_not_held hroom
  unfold alloc
  apply succeeds_look
  split
  · next r regs htake =>
    obtain ⟨hlt, hfree, hpin, rfl⟩ := take?_eq_some htake
    apply succeeds_regs
    apply succeeds_pure
    exact ⟨hL.addTemp hlt, hlt, by simp [Held, hfree, hpin], .mapRegs f _,
      .mapRegs f _, rfl⟩
  · next htake =>
    split
    · next hvictim =>
      have := take?_or_victim? hr₀ hheld₀
      simp [htake, hvictim] at this
    · next r hvictim =>
      obtain ⟨hlt, hslot, hpin⟩ := victim?_eq_some hvictim
      have hnt : f.regs.binding r ≠ .temp := by
        intro ht
        rw [ht] at hslot
        cases hslot
      apply succeeds_bind
      apply (evict_succeeds h hslot).mono
      rintro - f₁ ⟨hregs, hview, hun⟩
      apply succeeds_regs
      apply succeeds_pure
      refine ⟨?_, hlt, by simp [Held, hnt, hpin], hview.trans (.mapRegs f₁ _),
        hun.trans (.mapRegs f₁ _), ?_⟩
      · rw [Frame.regs_mapRegs, hregs]
        exact (hL.bind hnt (by simp)).addTemp hlt
      · rw [Frame.regs_mapRegs, hregs]
        rfl

/-- A double register can be had while one is not on loan. -/
theorem allocDouble_succeeds (h : f.Sound dead) (hL : f.regs.Lends L)
    (hroom : L.fcount < FReg.allocatable) :
    Succeeds allocDouble f fun r f' => f'.regs.Lends (L.addFTemp r) ∧
      r.index < FReg.allocatable ∧ ¬ f.regs.FHeld r ∧ f.SameView f' ∧ f.Unloads f' := by
  obtain ⟨r₀, hr₀, hheld₀⟩ := hL.exists_not_fheld hroom
  unfold allocDouble
  apply succeeds_look
  split
  · next r regs htake =>
    obtain ⟨hlt, hfree, hpin, rfl⟩ := ftake?_eq_some htake
    apply succeeds_regs
    apply succeeds_pure
    exact ⟨hL.addFTemp hlt, hlt, by simp [FHeld, hfree, hpin], .mapRegs f _,
      .mapRegs f _⟩
  · next htake =>
    split
    · next hvictim =>
      have := ftake?_or_fvictim? hr₀ hheld₀ fun s => h.ftag s r₀
      simp [htake, hvictim] at this
    · next r hvictim =>
      obtain ⟨hlt, hslot, hpin⟩ := fvictim?_eq_some hvictim
      obtain ⟨s, hs⟩ : ∃ s, f.regs.fbinding r = .data s := by
        cases hb : f.regs.fbinding r <;> simp [hb, Binding.isData] at hslot ⊢
      have hnt : f.regs.fbinding r ≠ .temp := by simp [hs]
      apply succeeds_bind
      apply (evictDouble_succeeds hs).mono
      rintro - f₁ ⟨hregs, hview, hun⟩
      apply succeeds_regs
      apply succeeds_pure
      refine ⟨?_, hlt, by simp [FHeld, hnt, hpin], hview.trans (.mapRegs f₁ _),
        hun.trans (.mapRegs f₁ _)⟩
      rw [Frame.regs_mapRegs, hregs]
      exact (hL.fbind hnt (by simp)).addFTemp hlt

end FrameM

end FastPath
