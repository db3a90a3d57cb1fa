import FastPath.Proofs.Compile.Routing

/-!
# What the element accesses deliver

An access borrows a register for the container, up to two for the key, and some for what is
read or written. With eight registers there is always room. An inline cache is recorded only
when both of its entries are branches with the registers that a learned case relies on.

## Main results

* `CompileM.cachedInline_delivers`, `CompileM.recordCache_delivers`: the two halves of a cache.
* `CompileM.getElem_delivers`, `CompileM.setElem_delivers`: reading and writing an element.
-/

namespace FastPath

open AsmM

/-! ### Constants and loans -/

/-- What may be an object is no constant. -/
theorem Frame.Ready.constant?_of_object {f : Frame} {D : Nat} {L : Loans} {s : Slot}
    (h : f.Ready D L) (hs : s < f.sp)
    (ht : f.knownType s = .unknown ∨ f.knownType s = .object) : f.constant? s = none := by
  cases hc : f.constant? s with
  | none => rfl
  | some v =>
    have hv := h.neat.constant ((h.tracks_model h.room).backing (Frame.live_of_lt hs)).1 hc
    rw [h.knownType_of_constant hs hc] at ht
    cases v <;> simp [KnownType.ofValue, Value.tag] at ht hv

namespace Loans

/-- Fewer temporaries. -/
def dropTemps (L : Loans) (rs : List Reg) : Loans := rs.foldl Loans.dropTemp L

theorem dropTemps_eq (L : Loans) (rs : List Reg) : L.dropTemps rs =
    { L with temps := L.temps.filter (· ∉ rs), full := L.full.filter (· ∉ rs) } := by
  induction rs generalizing L with
  | nil => simp [dropTemps]
  | cons r rs ih =>
    change (L.dropTemp r).dropTemps rs = _
    rw [ih]
    simp only [dropTemp, List.filter_filter]
    congr 1 <;> exact List.filter_congr fun q _ => by simp [Bool.and_comm]

theorem shape_pinSource (L : Loans) (src : Source) (g : Frame) :
    ((L.pinSource src).shape g).Covers (L.shape g) := by
  cases src <;> refine shape_mono g ?_ ?_ ?_ ?_ <;> simp [pinSource, addPins, addFPins]

theorem reads_pinSource (L : Loans) (src : Source) (g : Frame) :
    src.Reads ((L.pinSource src).shape g) := by
  cases src with
  | constant v => trivial
  | typed t r => exact shape_pin g List.mem_cons_self
  | regs t r => exact ⟨shape_pin g (List.mem_cons_of_mem _ List.mem_cons_self),
      shape_pin g List.mem_cons_self⟩
  | double r => exact shape_fpin g List.mem_cons_self

end Loans

namespace KeyLoc

/-- The loans together with the registers of a key, pinned in the given order. -/
def borrow (loc : KeyLoc) (pins : List Reg) (L : Loans) : Loans :=
  { L.addPins pins with temps := loc.temps ++ L.temps, full := loc.temps ++ L.full }

/-- The key of the slot is where the location says, as long as the loans stand. -/
structure Locates (loc : KeyLoc) (pins : List Reg) (f : Frame) (s : Slot) (L : Loans) : Prop where
  pinned : ∀ r ∈ pins, r ∈ loc.pins
  room : pins.length + loc.temps.length ≤ 2
  single : loc.temps.length ≤ 1
  fresh : ∀ r ∈ loc.temps, r ∉ L.temps
  key : ∀ g, loc.key.Reads ((loc.borrow pins L).shape g)
  index : ∀ i, loc.index = some i → (∀ g, i.Reads ((loc.borrow pins L).shape g)) ∧
    (f.knownType s = .unknown ∨ (f.knownType s).tag? = some .int32)
  string : loc.index = none → f.knownType s = .string

theorem count_borrow (loc : KeyLoc) (pins : List Reg) (L : Loans) :
    (loc.borrow pins L).count = L.count + (pins.length + loc.temps.length) := by
  simp only [borrow, Loans.count, Loans.addPins, List.length_append]
  omega

@[simp] theorem fcount_borrow (loc : KeyLoc) (pins : List Reg) (L : Loans) :
    (loc.borrow pins L).fcount = L.fcount := rfl

end KeyLoc

namespace CompileM

variable {β : Type} {c : Context} {σ : Sketch} {f : Frame} {L : Loans} {P T : Shape} {s : Slot}
  {js : List Jump} {slow w : Bool} {b n : Nat}

/-! ### Operands -/

variable {obj key value : Slot} {r : Reg} {loc : KeyLoc} {i : IndexKey} {Q : β → Sketch → Prop}
  {pins temps : List Reg} {M : Loans} {x : Reg × List Reg} {types : TypeSet} {packed : Bool}
  {heap : Heap}

theorem isHoisted_delivers {Q : Bool → Sketch → Prop} (h : ∀ v, Q v σ) :
    Delivers c (isHoisted obj key) σ Q := by
  refine delivers_read (delivers_queryFrame ?_)
  dsimp only
  split
  · exact delivers_pure (h _)
  · intro s hs hl
    exact ⟨_, _, σ, rfl, ⟨hs.asm, hs.caches⟩, hl, rfl, .refl σ, h _⟩

/-- The object is in a register. -/
theorem loadObject_delivers (h : σ.Lent f L) (hroom : L.count < Reg.count) (hs : s < f.sp)
    (hc : f.constant? s = none) (ht : f.knownType s ≠ .double) :
    Delivers c (liftM (loadObject s)) σ fun x σ' => σ'.Lent f (L.addPins x.2) ∧
      x.2.length ≤ 1 ∧ x.1 ∈ (L.addPins x.2).pins := by
  unfold loadObject
  rw [liftM_frame_bind]
  refine (dataReg_delivers h hroom hs hc ht).bind ?_
  rintro r σ₁ ⟨h₁, hr⟩
  rw [liftM_frame_bind]
  refine (pin_delivers h₁ hr).bind ?_
  rintro pins σ₂ ⟨h₂, hpins, hmem⟩
  exact delivers_pure ⟨h₂, hpins, hmem⟩

/-- A key is a constant index, or is in registers. -/
theorem loadKey_delivers (h : σ.Lent f L) (hroom : L.count + 1 < Reg.count) (hs : s < f.sp)
    (ht : f.knownType s = .unknown ∨ f.knownType s = .int32 ∨ f.knownType s = .string) :
    Delivers c (liftM (loadKey s)) σ fun loc σ' => ∃ pins, σ'.Lent f (loc.borrow pins L) ∧
      loc.Locates pins f s L := by
  refine delivers_ready fun hready _ => ?_
  have hnd : f.knownType s ≠ .double := by rcases ht with h | h | h <;> simp [h]
  have htype := h.view.knownType s
  have hconst := h.view.constant?_eq s
  have hlt : s < σ.frame.sp := h.view.sp ▸ hs
  unfold loadKey
  rw [liftM_frame_bind]
  refine delivers_queryTracker ?_
  split
  · next i hc =>
    have hk : f.knownType s = .int32 := htype ▸ hready.knownType_of_constant hlt hc
    refine delivers_pure ⟨[], h, by simp, by simp, by simp, by simp, fun _ => trivial, ?_, by simp⟩
    rintro _ ⟨⟩
    exact ⟨fun _ => trivial, .inr (hk ▸ rfl)⟩
  · next v hne hc =>
    have hk : f.knownType s = .ofValue v := htype ▸ hready.knownType_of_constant hlt hc
    rw [liftM_frame_bind]
    refine (copyData_delivers h hroom hs hnd).bind ?_
    rintro r σ₁ ⟨h₁, -, hr⟩
    refine delivers_pure ⟨[], h₁, by simp, by simp, by simp, by simpa using hr,
      fun g => ⟨rfl, Loans.shape_full g (by simp [KeyLoc.borrow])⟩, by simp, fun _ => ?_⟩
    rw [hk] at ht ⊢
    cases v <;> simp_all [KnownType.ofValue]
  · next hc hk =>
    rw [htype] at hk
    rw [hconst] at hc
    rw [liftM_frame_bind]
    refine (tagReg_delivers h (by omega) hs hk).bind ?_
    rintro tag σ₁ ⟨h₁, htag⟩
    rw [liftM_frame_bind]
    refine (pin_delivers h₁ htag).bind ?_
    rintro pins₁ σ₂ ⟨h₂, hpins₁, hmem₁⟩
    rw [liftM_frame_bind]
    refine (dataReg_delivers h₂ (by rw [Loans.count_addPins]; omega) hs hc hnd).bind ?_
    rintro payload σ₃ ⟨h₃, hpayload⟩
    rw [liftM_frame_bind]
    refine (pin_delivers h₃ hpayload).bind ?_
    rintro pins₂ σ₄ ⟨h₄, hpins₂, hmem₂⟩
    have hreg : ∀ g, (((L.addPins pins₁).addPins pins₂).shape g).reg payload := fun g =>
      Loans.shape_pin g hmem₂
    have hL : ((L.addPins pins₁).addPins pins₂) = L.addPins (pins₂ ++ pins₁) := by
      simp [Loans.addPins]
    rw [hL] at h₄ hreg
    refine delivers_pure ⟨pins₂ ++ pins₁, h₄, by simp [or_comm], ?_, by simp, by simp,
      fun g => ⟨?_, hreg g⟩, ?_, by simp⟩
    · simp only [List.length_append, List.length_nil]
      omega
    · refine Loans.shape_pin g (show tag ∈ (L.addPins (pins₂ ++ pins₁)).pins from ?_)
      rw [← hL]
      exact List.mem_append_right _ hmem₁
    · rintro _ ⟨⟩
      exact ⟨hreg, .inl hk⟩
  · next hc hunknown =>
    rw [htype] at hunknown ⊢
    rw [hconst] at hc
    rw [liftM_frame_bind]
    refine (dataReg_delivers h (by omega) hs hc hnd).bind ?_
    rintro payload σ₁ ⟨h₁, hpayload⟩
    rw [liftM_frame_bind]
    refine (pin_delivers h₁ hpayload).bind ?_
    rintro pins σ₂ ⟨h₂, hpins, hmem⟩
    have hreg : ∀ g, ((L.addPins pins).shape g).reg payload := fun g => Loans.shape_pin g hmem
    refine delivers_pure ⟨pins, h₂, by simp, by simpa using Nat.le_succ_of_le hpins, by simp,
      by simp, fun g => ⟨?_, hreg g⟩, ?_, ?_⟩
    · rcases ht with ht | ht | ht
      · exact absurd ht hunknown
      · rw [ht]; rfl
      · rw [ht]; rfl
    · intro i hi
      split at hi
      · next hk =>
        cases hi
        exact ⟨hreg, .inr (hk ▸ rfl)⟩
      · cases hi
    · intro hi
      split at hi
      · cases hi
      · next hk => exact (ht.resolve_left hunknown).resolve_left hk

/-! ### Guards -/

/-- A branch of the fast stream that waits for the slow path, as one step. -/
theorem exitUnlessArray_delivers (h : σ.Armed f L P js) (hr : P.reg r) :
    Delivers c (liftM (exitUnlessArray r)) σ fun _ σ' => σ'.Armed f L P js ∧ σ'.waiting ∧
      (σ.label .fast, σ.shape .fast) ∈ σ'.sites := by
  unfold exitUnlessArray
  rw [liftM_bind]
  exact exit_delivers h ⟨.inr rfl, hr⟩

/-- A key that has to be an integer is tested. -/
theorem guardIntKey_delivers (h : σ.Armed f L P js) (hs : s < f.sp)
    (ht : loc.index.isSome → f.knownType s = .unknown ∨ (f.knownType s).tag? = some .int32) :
    Delivers c (guardIntKey s loc) σ fun _ σ' => σ'.Armed f L P js ∧
      (loc.index = none → σ'.Armed f L Shape.all js) := by
  unfold guardIntKey
  cases hi : loc.index with
  | none =>
    exact (exit_delivers (g := .always) h trivial).mono fun _ _ h' =>
      ⟨h'.1.mono (Shape.all_covers P), fun _ => h'.1⟩
  | some i => exact (guardTag_delivers h hs (ht (by simp [hi]))).mono fun _ _ h' => ⟨h', nofun⟩

theorem branchPast_delivers (h : σ.Armed f L P js) (hr : P.reg r) (hi : i.Reads P) :
    Delivers c (liftM (branchPast r i) >>= fun j => liftM (linkExit j)) σ fun _ σ' =>
      σ'.Armed f L P js :=
  (exit_delivers (g := .extent .initializedLength r i (.unsigned .le)) h ⟨hr, hi⟩).mono
    fun _ _ h' => h'.1

/-! ### Inline caches -/

/-- The inline part of an access through a cache. -/
theorem cachedInline_delivers {access : IndexKey → Inst} (h : σ.Armed f L P js) (ho : obj < f.sp)
    (hk : key < f.sp) (hobj : f.knownType obj = .unknown ∨ f.knownType obj = .object) (hr : P.reg r)
    (hindex : ∀ i, loc.index = some i → i.Reads P ∧
      (f.knownType key = .unknown ∨ (f.knownType key).tag? = some .int32))
    (haccess : ∀ i, loc.index = some i → (access i).target? = none ∧ (access i).isCall = false ∧
      (access i).Reads (f.limit c.slots) P ∧ ((access i).after P).Covers T) :
    Delivers c (cachedInline obj key r loc access) σ fun x σ' => σ'.Armed f L T js ∧
      (∃ S, (x.1, S) ∈ σ'.sites ∧ S.Covers P) ∧ ∃ S, (x.2, S) ∈ σ'.sites ∧ S.Covers P := by
  refine delivers_bind (delivers_asm (label_delivers ?_))
  have h₀ : (σ.mark .fast).Armed f L P js := ⟨h.frame, h.loans, h.fast, h.slow, h.opens, h.pending⟩
  refine (guardTag_site h₀ ho (hobj.imp id fun h => h ▸ rfl)).precedes.andThen ?_
  rintro - σ₁ ⟨⟨h₁, hstart⟩, hp₁⟩
  refine delivers_bind (delivers_asm (label_delivers ?_))
  have h₁' : (σ₁.mark .fast).Armed f L P js :=
    ⟨h₁.frame, h₁.loans, h₁.fast, h₁.slow, h₁.opens, h₁.pending⟩
  refine (exitUnlessArray_delivers h₁' hr).precedes.bind ?_
  rintro - σ₂ ⟨⟨h₂, -, hguard⟩, hp₂⟩
  -- without a tag to test, the class guard is the first branch
  have hstart₂ : ∃ S, (σ.label .fast, S) ∈ σ₂.sites ∧ S.Covers P := by
    rcases hstart with rfl | hstart
    · exact ⟨_, hguard, h.fast⟩
    · exact ⟨_, hp₂.sites hstart, h.fast⟩
  have hguard₂ : ∃ S, (σ₁.label .fast, S) ∈ σ₂.sites ∧ S.Covers P := ⟨_, hguard, h₁.fast⟩
  refine (guardIntKey_delivers h₂ hk fun hi => ?_).precedes.bind ?_
  · obtain ⟨i, hi⟩ := Option.isSome_iff_exists.1 hi
    exact (hindex i hi).2
  rintro - σ₃ ⟨⟨h₃, hnone₃⟩, hp₃⟩
  have keep : ∀ {σ' : Sketch} {l : Label}, σ₂.Precedes σ' →
      (∃ S, (l, S) ∈ σ₂.sites ∧ S.Covers P) → ∃ S, (l, S) ∈ σ'.sites ∧ S.Covers P :=
    fun hp ⟨S, hS, hc⟩ => ⟨S, hp.sites hS, hc⟩
  cases hi : loc.index with
  | none =>
    exact delivers_pure ⟨(hnone₃ hi).mono (Shape.all_covers T), keep hp₃ hstart₂,
      keep hp₃ hguard₂⟩
  | some i =>
    obtain ⟨htarget, hcall, hreads, hafter⟩ := haccess i hi
    refine (branchPast_delivers h₃ hr (hindex i hi).1).precedes.andThen ?_
    rintro - σ₄ ⟨h₄, hp₄⟩
    refine (exit_delivers (g := .hole r i) h₄ ⟨hr, (hindex i hi).1⟩).precedes.andThen ?_
    rintro - σ₅ ⟨⟨h₅, -⟩, hp₅⟩
    refine (emit_delivers h₅ htarget hcall hreads).precedes.bind ?_
    rintro - σ₆ ⟨⟨h₆, -⟩, hp₆⟩
    have hp := ((hp₃.trans hp₄).trans hp₅).trans hp₆
    exact delivers_pure ⟨h₆.mono hafter, keep hp hstart₂, keep hp hguard₂⟩

theorem delivers_queryCaches {k : Compilation → CompileM β}
    (h : ∀ s : Compilation, s.caches.size = σ.caches.length → Delivers c (k s) σ Q) :
    Delivers c (getThe Compilation >>= k) σ Q := by
  intro s hs hl
  refine h s ?_ s hs hl
  rw [← hs.caches, Array.length_toList]

/-- A call that consults a cache, and the record of the cache. -/
theorem callCache_delivers {layout : CacheLayout Label} {mask : RegMask} (hs : σ.Serves layout)
    (hsp : (MachineM.cacheStub layout.kind).uses ≤ σ.frame.sp) :
    Delivers c (do
      let _ ← callCache σ.caches.length mask
      modifyThe Compilation fun s => { s with caches := s.caches.push layout }) σ fun _ σ' =>
        σ' = { σ.append .slow 1 .none with pending := true, caches := σ.caches ++ [layout] } := by
  intro s hs' hl
  have ha := hs'.asm
  obtain ⟨Γ, hΓ⟩ := ha.typing
  have hbooks := ha.books.emitCall (s := .slow)
    (i := .callCache σ.caches.length σ.frame.sp mask) rfl ha.ready.room .none [layout]
    (by simpa using hs) (by
      rintro n sp m ⟨⟩
      exact ⟨layout, by simp, hsp, ha.ready.room⟩)
  have hcode := hΓ.emit (s := .slow) (i := .callCache σ.caches.length σ.frame.sp mask) trivial
  refine ⟨(), { s with
    asm := { s.asm with
      buffer := s.asm.buffer.emit .slow (.callCache σ.caches.length σ.frame.sp mask)
      slow := s.asm.slow.record (s.asm.buffer.label .slow) σ.frame.sp }
    caches := s.caches.push layout },
    { σ.append .slow 1 .none with pending := true, caches := σ.caches ++ [layout] }, ?_,
    ⟨⟨ha.ready, ?_, hbooks, _, hcode.congr (fun _ => rfl) rfl rfl rfl rfl⟩, ?_⟩, hl, rfl,
    ⟨rfl, rfl, List.Subset.refl _, List.Subset.refl _⟩, rfl⟩
  · rw [← ha.books.frame]
    rfl
  · simpa [Sketch.append] using ha.fast
  · simp [hs'.caches]

/-- The slow path of a cache. Every register that a learned case reads is there at the class
guard, and those that it leaves are enough where the inline path goes on. -/
theorem recordCache_delivers {kind : CacheKind} {inline : Label × Label} {value : Option Source}
    {result : Option (Reg × Reg)} {S₁ S₂ : Shape} (h : σ.Armed f L T []) (hT : T.Covers (L.shape f))
    (hstart : (inline.1, S₁) ∈ σ.sites) (hS₁ : S₁.Covers f.bound)
    (hguard : (inline.2, S₂) ∈ σ.sites) (hr : S₂.reg r) (hkey : loc.key.Reads S₂)
    (hhits : ∀ layout : CacheLayout Label, layout.kind = kind → layout.value = value →
      layout.result = result → layout.Hits S₂ T) (hsp : (MachineM.cacheStub kind).uses ≤ f.sp) :
    Delivers c (recordCache kind inline r loc value result) σ fun _ σ' =>
      σ'.Releasing true f.stackBase f.sp L T := by
  obtain rfl := h.frame
  obtain rfl := h.loans
  refine delivers_weaken .fast h.fast (fun _ => hT) ?_
  refine delivers_bind (delivers_asm (label_delivers ?_))
  refine delivers_queryCaches fun s hsize => ?_
  rw [hsize]
  refine delivers_bind (delivers_asm (leave_delivers ?_ fun n => ?_))
  · simpa [Sketch.mark, Sketch.weaken, h.slow] using Shape.all_covers _
  refine delivers_queryFrame ((callCache_delivers ?_ hsp).mono ?_)
  · refine ⟨⟨S₁, σ.frame.bound, hstart, ?_, hS₁⟩, S₂, T, hguard, ?_, hr, hkey, hhits _ rfl rfl rfl⟩
    · simp [Sketch.leave, Sketch.mark, Sketch.weaken, Sketch.label]
    · simp [Sketch.leave, Sketch.mark, Sketch.weaken, Sketch.label]
  · rintro - _ rfl
    refine ⟨rfl, rfl, rfl, ?_, h.opens.eq_nil, rfl, by simp⟩
    simpa [Sketch.append, Sketch.leave, Sketch.mark, Sketch.weaken] using .refl _

/-! ### Giving back -/

/-- Several temporaries are given back. -/
theorem freeAll_delivers {rs : List Reg} (h : σ.Releasing slow b n L P) (hrs : rs.Nodup)
    (hmem : ∀ r ∈ rs, r ∈ L.temps) :
    Delivers c (liftM (rs.forM FrameM.free)) σ fun _ σ' =>
      σ'.Releasing slow b n (L.dropTemps rs) P := by
  induction rs generalizing σ L with
  | nil => exact delivers_pure h
  | cons r rs ih =>
    obtain ⟨hr, hrs⟩ := List.nodup_cons.1 hrs
    change Delivers c (liftM (FrameM.free r >>= fun _ => rs.forM FrameM.free)) σ _
    rw [liftM_frame_bind]
    refine (free_delivers h (hmem r List.mem_cons_self)).bind fun _ σ₁ h₁ =>
      ih h₁ hrs fun q hq => ?_
    refine List.mem_filter.2 ⟨hmem q (List.mem_cons_of_mem _ hq), ?_⟩
    simpa using fun heq : q = r => hr (heq ▸ hq)

theorem releaseAccess_delivers (h : σ.Releasing slow b n L P) (htemps : temps.Nodup)
    (hmem : ∀ r ∈ temps, r ∈ L.temps) :
    Delivers c (liftM (releaseAccess pins temps)) σ fun _ σ' =>
      σ'.Releasing slow b n ((L.dropPins pins).dropTemps temps) P := by
  unfold releaseAccess
  rw [liftM_frame_bind]
  exact (unpinAll_delivers pins h).bind fun _ _ h₁ => freeAll_delivers h₁ htemps hmem

/-! ### Reading through a cache -/

/-- What is known about the operands of an access that is compiled with guards. -/
structure Accessible (f : Frame) (obj key : Slot) : Prop where
  obj_lt : obj < f.sp
  key_lt : key < f.sp
  object : f.knownType obj = .unknown ∨ f.knownType obj = .object
  key : f.knownType key = .unknown ∨ f.knownType key = .int32 ∨ f.knownType key = .string

theorem Accessible.ne_double (h : Accessible f obj key) : f.knownType obj ≠ .double := by
  rcases h.object with h | h <;> simp [h]

theorem Accessible.of_view {g : Frame} (h : Accessible f obj key) (hv : f.SameView g) :
    Accessible g obj key where
  obj_lt := hv.sp ▸ h.obj_lt
  key_lt := hv.sp ▸ h.key_lt
  object := hv.knownType obj ▸ h.object
  key := hv.knownType key ▸ h.key

/-- The loans are those of a container and a key in registers. -/
structure Operands (M : Loans) (x : Reg × List Reg) (loc : KeyLoc) (f : Frame) (s : Slot) :
    Prop where
  count : M.count ≤ 3
  temps : M.temps = loc.temps
  nodup : loc.temps.Nodup
  full : M.full = loc.temps
  pinned : ∀ r ∈ M.pins, r ∈ x.2 ++ loc.pins
  ftemps : M.ftemps = []
  fpins : M.fpins = []
  ffull : M.ffull = []
  obj : ∀ g, (M.shape g).reg x.1
  key : ∀ g, loc.key.Reads (M.shape g)
  index : ∀ i, loc.index = some i → (∀ g, i.Reads (M.shape g)) ∧
    (f.knownType s = .unknown ∨ (f.knownType s).tag? = some .int32)
  string : loc.index = none → f.knownType s = .string

/-- Object and key are loaded before anything else. -/
theorem operands_delivers {k : Reg × List Reg → KeyLoc → CompileM β} (hσ : σ.Clean)
    (h : Accessible σ.frame obj key)
    (hk : ∀ x loc M σ', σ'.Lent σ.frame M → Operands M x loc σ.frame key →
      Delivers c (k x loc) σ' Q) :
    Delivers c (do
      let x ← loadObject obj
      let loc ← loadKey key
      k x loc) σ Q := by
  refine delivers_ready fun hready _ => ?_
  refine (loadObject_delivers hσ.lent (by decide) h.obj_lt
    (hready.constant?_of_object h.obj_lt h.object) h.ne_double).bind ?_
  rintro x σ₁ ⟨h₁, hlen, hmem⟩
  have hcount : (Loans.none.addPins x.2).count ≤ 1 := by
    rw [Loans.count_addPins, Loans.count_none]
    omega
  refine (loadKey_delivers h₁ (Nat.lt_of_le_of_lt (Nat.succ_le_succ hcount) (by decide)) h.key_lt
    h.key).bind ?_
  rintro loc σ₂ ⟨pins, h₂, hloc⟩
  refine hk x loc _ σ₂ h₂ ⟨?_, ?_, ?_, ?_, fun r hr => ?_, rfl, rfl, rfl, fun g => ?_, hloc.key,
    hloc.index, hloc.string⟩
  · have := hloc.room
    rw [KeyLoc.count_borrow]
    omega
  · simp [KeyLoc.borrow, Loans.addPins, Loans.none]
  · have hsingle := hloc.single
    generalize loc.temps = temps at hsingle ⊢
    obtain _ | ⟨r, _ | ⟨q, ts⟩⟩ := temps
    · exact List.nodup_nil
    · exact List.pairwise_singleton ..
    · simp at hsingle
  · simp [KeyLoc.borrow, Loans.addPins, Loans.none]
  · simp only [KeyLoc.borrow, Loans.addPins, Loans.none, List.append_nil, List.mem_append] at hr ⊢
    exact hr.symm.imp id (hloc.pinned r)
  · exact Loans.shape_pin g (List.mem_append_right _ hmem)

/-- After the release only the temporaries that hold no operand are left. -/
theorem Operands.release {L : Loans} (h : Operands M x loc f s) (ts : List Reg)
    (htemps : L.temps = ts ++ M.temps) (hts : ∀ r ∈ ts, r ∉ M.temps) (hfull : L.full = M.full)
    (hpins : ∀ r ∈ L.pins, r ∈ M.pins) (hft : L.ftemps = []) (hfp : L.fpins = [])
    (hff : L.ffull = []) :
    (L.dropPins (x.2 ++ loc.pins)).dropTemps loc.temps = { Loans.none with temps := ts } := by
  rw [Loans.dropTemps_eq]
  simp only [Loans.dropPins, htemps, hfull, hft, hfp, hff, h.temps, h.full, Loans.none,
    List.filter_append, Loans.mk.injEq, and_true]
  have hself : loc.temps.filter (· ∉ loc.temps) = [] := by simp
  refine ⟨?_, ?_, hself⟩
  · rw [hself, List.append_nil, List.filter_eq_self]
    intro r hr
    simpa using h.temps ▸ hts r hr
  · rw [List.filter_eq_nil_iff]
    intro r hr
    simp only [decide_eq_true_eq, not_not]
    exact h.pinned r (hpins r hr)

/-- Reading a property through a cache. -/
theorem getCached_delivers (hσ : σ.Clean) (hn : σ.frame.stackBase + 2 ≤ σ.frame.sp)
    (h : Accessible σ.frame obj key) :
    Delivers c (getCached obj key) σ fun _ σ' => σ'.Clean ∧
      σ'.frame.sp = σ.frame.sp - 2 + 1 := by
  refine delivers_bind (pushedTypes_delivers fun types => ?_)
  refine operands_delivers hσ h ?_
  rintro ⟨objReg, objPins⟩ loc M σ₂ h₂ hM
  have hcount := hM.count
  refine (alloc_delivers h₂ (by simp only [Reg.count]; omega)).bind ?_
  rintro tag σ₃ ⟨h₃, htag, hne₃⟩
  refine (alloc_delivers h₃ (by simp only [Loans.count_addTemp, Reg.count]; omega)).bind ?_
  rintro payload σ₄ ⟨h₄, hpayload, hne₄⟩
  refine delivers_armed h₄ fun _ ha₄ => ?_
  have hv := h₄.view
  have hacc := h.of_view hv
  refine (cachedInline_delivers (T := ((M.shape σ₄.frame).withReg tag).withReg payload) ha₄
    hacc.obj_lt hacc.key_lt hacc.object (hM.obj _) (fun i hi => ?_) fun i hi => ?_).bind ?_
  · rw [hv.knownType]
    exact ⟨(hM.index i hi).1 _, (hM.index i hi).2⟩
  · refine ⟨rfl, rfl, ⟨⟨hM.obj _, (hM.index i hi).1 _⟩, ?_, hpayload⟩, .refl _⟩
    rintro _ ⟨⟩
    exact htag
  rintro ⟨start, guard⟩ σ₅ ⟨h₅, ⟨S₁, hstart, hS₁⟩, S₂, hguard, hS₂⟩
  refine (recordCache_delivers h₅ ?_ hstart (hS₁.trans (Loans.shape_covers_bound _ _)) hguard
    (hS₂.reg _ (hM.obj _)) ((hM.key _).mono hS₂) ?_ ?_).bind fun _ σ₆ h₆ => ?_
  · exact (Shape.withReg_covers _ _).trans (Shape.withReg_covers _ _)
  · rintro layout hkind - hresult
    unfold CacheLayout.Hits
    rw [hkind]
    exact ⟨tag, payload, hresult, htag, hpayload, (hS₂.withReg tag).withReg payload⟩
  · rw [hv.sp]
    exact Nat.le_trans (Nat.le_add_left _ _) hn
  refine (releaseAccess_delivers h₆ hM.nodup fun r hr => ?_).bind fun _ σ₇ h₇ => ?_
  · exact List.mem_cons_of_mem _ (List.mem_cons_of_mem _ (hM.temps ▸ hr))
  have hne : payload ≠ tag ∧ payload ∉ M.temps := by simpa [Loans.addTemp] using hne₄
  rw [hM.release (L := (M.addTemp tag).addTemp payload) [payload, tag] rfl
    (by simp [hne.2, hne₃]) rfl (fun _ => id) hM.ftemps hM.fpins hM.ffull] at h₇
  refine (popN_delivers h₇ ?_).bind fun _ σ₈ h₈ => ?_
  · rw [hv.sp, hv.stackBase]
    exact hn
  refine (pushRegs_delivers h₈ hne.1.symm (by simp) (by simp) (.inr (.inl rfl)) (.inl rfl)).bind
    fun _ σ₉ h₉ => ?_
  have hL₉ : ((({ Loans.none with temps := [payload, tag] } : Loans).dropTemp tag).dropTemp
    payload) = Loans.none := by simp [Loans.dropTemp, Loans.none]
  refine (rejoin_delivers (hL₉ ▸ h₉)).bind fun _ _ h₁₀ => delivers_pure (hv.sp ▸ h₁₀)

/-! ### Writing through a cache -/

/-- An assignment gives back what it borrowed. -/
theorem finishWrite_delivers {src : Source} (h : σ.Releasing true b n L P) (htemps : temps.Nodup)
    (hmem : ∀ r ∈ temps, r ∈ (L.unpinSource src).temps)
    (hL : ((L.unpinSource src).dropPins pins).dropTemps temps = Loans.none) (hn : b + 3 ≤ n) :
    Delivers c (finishWrite src pins temps) σ fun _ σ' => σ'.Clean ∧ σ'.frame.sp = n - 2 := by
  refine (unpinSource_delivers src h).bind fun _ σ₁ h₁ => ?_
  refine (releaseAccess_delivers h₁ htemps hmem).bind fun _ σ₂ h₂ => ?_
  rw [hL] at h₂
  refine (assign_delivers h₂ fun hf => FrameM.shimmy_delivers hf (by decide) ?_).bind
    fun _ σ₃ h₃ => ?_
  · rw [h₂.base, h₂.sp]
    omega
  rw [h₂.sp] at h₃
  exact rejoin_delivers h₃

theorem Operands.fcount (h : Operands M x loc f s) : M.fcount = 0 := by
  simp [Loans.fcount, h.ftemps, h.fpins]

/-- A write gives back all that it has borrowed. -/
theorem Operands.release_write (h : Operands M x loc f s) (src : Source) (grown : Option Reg)
    (hg : ∀ r, grown = some r → r ∉ M.temps) :
    ((((M.pinSource src).addTemp? grown).unpinSource src).dropPins (x.2 ++ loc.pins)).dropTemps
      (loc.temps ++ grown.toList) = Loans.none := by
  have hfpins := h.fpins
  have hrelease := h.release (L := ((M.pinSource src).addTemp? grown).unpinSource src)
    grown.toList (by cases src <;> rfl) (by simpa using hg) (by cases src <;> rfl)
    (fun r hr => ?_) (by cases src <;> exact h.ftemps) ?_ (by cases src <;> exact h.ffull)
  · rw [Loans.dropTemps, List.foldl_append]
    change ((Loans.dropTemps _ loc.temps).dropTemps grown.toList) = _
    rw [hrelease, Loans.dropTemps_eq]
    simp [Loans.none]
  · cases src <;>
      simp_all [Loans.pinSource, Loans.unpinSource, Loans.addTemp?, Loans.addPins, Loans.dropPins,
        Loans.addFPins, Loans.dropFPins]
  · cases src <;>
      simp [hfpins, Loans.pinSource, Loans.unpinSource, Loans.addTemp?, Loans.addPins,
        Loans.dropPins, Loans.addFPins, Loans.dropFPins]

/-- Assigning a property through a cache. -/
theorem setCached_delivers (hσ : σ.Clean) (hn : σ.frame.stackBase + 3 ≤ σ.frame.sp)
    (h : Accessible σ.frame obj key) (hval : value < σ.frame.sp) :
    Delivers c (setCached obj key value) σ fun _ σ' => σ'.Clean ∧
      σ'.frame.sp = σ.frame.sp - 2 := by
  refine operands_delivers hσ h ?_
  rintro ⟨objReg, objPins⟩ loc M σ₁ h₁ hM
  have hcount := hM.count
  refine (source_delivers h₁ (by simp only [Reg.count]; omega) (by rw [hM.fcount]; decide)
    hval).bind fun src σ₂ h₂ => ?_
  refine delivers_armed h₂ fun _ ha₂ => ?_
  have hv := h₂.view
  have hacc := h.of_view hv
  have hcovers := Loans.shape_pinSource M src σ₂.frame
  refine (cachedInline_delivers (T := (M.pinSource src).shape σ₂.frame) ha₂ hacc.obj_lt
    hacc.key_lt hacc.object (hcovers.reg _ (hM.obj _)) (fun i hi => ?_) fun i hi => ?_).bind ?_
  · rw [hv.knownType]
    exact ⟨((hM.index i hi).1 _).mono hcovers, (hM.index i hi).2⟩
  · exact ⟨rfl, rfl, ⟨⟨hcovers.reg _ (hM.obj _), ((hM.index i hi).1 _).mono hcovers⟩,
      Loans.reads_pinSource M src _⟩, .refl _⟩
  rintro ⟨start, guard⟩ σ₃ ⟨h₃, ⟨S₁, hstart, hS₁⟩, S₂, hguard, hS₂⟩
  refine (recordCache_delivers h₃ (.refl _) hstart (hS₁.trans (Loans.shape_covers_bound _ _))
    hguard (hS₂.reg _ (hcovers.reg _ (hM.obj _))) ((hM.key _).mono (hS₂.trans hcovers))
    ?_ ?_).bind fun _ σ₄ h₄ => ?_
  · rintro layout hkind hvalue -
    unfold CacheLayout.Hits
    rw [hkind]
    exact ⟨src, hvalue, (Loans.reads_pinSource M src _).mono hS₂, hS₂⟩
  · rw [hv.sp]
    exact Nat.le_trans (Nat.le_add_left _ _) hn
  have hrelease := hM.release_write src none (by simp)
  rw [Option.toList_none, List.append_nil] at hrelease
  refine (finishWrite_delivers h₄ hM.nodup ?_ hrelease ?_).bind fun _ _ h₅ =>
    delivers_pure (hv.sp ▸ h₅)
  · intro r hr
    have : ((M.pinSource src).unpinSource src).temps = M.temps := by cases src <;> rfl
    rw [this, hM.temps]
    exact hr
  · rw [hv.sp, hv.stackBase]
    exact hn

/-! ### Reading from an array -/

theorem denseIndex_delivers {Q : IndexKey → Sketch → Prop} (hi : loc.index = some i) (h : Q i σ) :
    Delivers c (denseIndex loc) σ Q := by
  unfold denseIndex
  rw [hi]
  exact delivers_pure h

/-- A register for the tag, if it is not known. -/
theorem tagReg?_delivers (h : σ.Lent f L) (hroom : L.count < Reg.count) :
    Delivers c (liftM (tagReg? types)) σ fun o σ' => σ'.Lent f (L.addTemp? o) ∧
      (∀ r, o = some r → r.Valid ∧ r ∉ L.temps) ∧
      (o = none → types.knownType.tag?.isSome) := by
  unfold tagReg?
  split
  · next ht => exact delivers_pure ⟨h, nofun, fun _ => ht⟩
  · rw [liftM_frame_bind]
    refine (alloc_delivers h hroom).bind ?_
    rintro r σ₁ ⟨h₁, hr⟩
    exact delivers_pure ⟨h₁, by rintro _ ⟨⟩; exact hr, nofun⟩

section Dense

variable {S : Shape} {ss : List (Jump × Shape)} {ts : List (Label × Shape)} {p : Bool} {r : Reg}
  {i : IndexKey}

/-- An index that is past the end leaves the fast stream. -/
theorem checkBounds_delivers {hoisted : Bool} (h : σ.Routing f L P S ss ts js w p)
    (hr : P.reg r) (hi : i.Reads P) :
    Delivers c (liftM (checkBounds hoisted r i)) σ fun past σ' =>
      σ'.Routing f L P S (past.map (·, P) ++ ss) ts (past ++ js) w p ∧
      (past = [] ∨ hoisted = false ∧ ∃ j, past = [j]) := by
  unfold checkBounds
  cases hoisted with
  | true => exact delivers_pure ⟨h, .inl rfl⟩
  | false =>
    rw [if_neg Bool.false_ne_true, liftM_bind]
    refine (delivers_asm (h.branch_fast (g := .extent .initializedLength r i (.unsigned .le))
      ⟨hr, hi⟩)).bind fun j σ₁ h₁ => ?_
    exact delivers_pure ⟨h₁, .inr ⟨rfl, j, rfl⟩⟩

variable {tag : Option Reg} {payload : Reg} {misses : List Jump}

/-- An element is loaded, with its tag if that is wanted. -/
theorem loadDense_delivers {packed : Bool} (h : σ.Routing f L P S ss ts js w p) (hr : P.reg r)
    (hi : i.Reads P) (htag : ∀ r, tag = some r → r.Valid) (hpayload : payload.Valid) :
    Delivers c (liftM (loadDense r i packed tag payload)) σ fun holes σ' =>
      σ'.Routing f L ((P.withReg? tag).withReg payload) S (holes.map (·, P) ++ ss) ts
        (holes ++ js) w p := by
  unfold loadDense
  cases packed with
  | true =>
    rw [if_pos rfl, liftM_bind]
    refine (delivers_asm (h.branch_fast (g := .loadPacked r i tag payload)
      ⟨⟨hr, hi⟩, htag, hpayload⟩)).bind fun j σ₁ h₁ => ?_
    exact delivers_pure h₁
  | false =>
    rw [if_neg Bool.false_ne_true, liftM_bind]
    refine (delivers_asm (h.branch_fast (g := .hole r i) ⟨hr, hi⟩)).bind fun j σ₁ h₁ => ?_
    rw [liftM_bind]
    refine (delivers_asm (h₁.emit_fast rfl rfl ?_)).bind fun _ σ₂ h₂ => ?_
    · exact ⟨⟨hr, hi⟩, htag, hpayload⟩
    exact delivers_pure h₂

/-- Several guards wait for the slow path. -/
theorem linkExits_delivers (h : σ.Routing f L P S ss ts (misses ++ js) w p)
    (hmiss : ∀ j ∈ misses, ∃ A, (j, A) ∈ ss ∧ A.Covers f.bound) :
    Delivers c (misses.forM fun j => (linkExit j : CompileM Unit)) σ fun _ σ' =>
      ∃ w', σ'.Routing f L P S ss ts js w' p := by
  induction misses generalizing σ w with
  | nil => exact delivers_pure ⟨w, h⟩
  | cons j misses ih =>
    obtain ⟨A, hA, hc⟩ := hmiss j List.mem_cons_self
    refine (delivers_asm (h.linkExit (.refl _) hA hc)).bind fun _ σ₁ h₁ => ?_
    exact ih h₁ fun k hk => hmiss k (List.mem_cons_of_mem _ hk)

variable (h : σ.Routing f L ((P.withReg? tag).withReg payload) Shape.all ss ts js w false)
  (hP : P.Covers (L.shape f)) (hjs : js.Perm misses)
  (hmiss : ∀ j ∈ misses, ∃ A, (j, A) ∈ ss ∧ A.Covers P) (htag : ∀ r, tag = some r → r.Valid)
  (hpayload : payload.Valid)
include h hP hjs hmiss htag hpayload

/-- Every miss comes to a place where the registers before the access are enough. -/
theorem missesReadUndefined_delivers :
    Delivers c (missesReadUndefined misses tag payload) σ fun _ σ' =>
      σ'.Armed f L ((P.withReg? tag).withReg payload) [] := by
  refine (delivers_asm (h.branch_fast (g := .always) trivial)).bind fun done σ₁ h₁ => ?_
  refine (delivers_asm (h₁.label_fast P (Shape.all_covers P) hP)).bind fun miss σ₂ h₂ => ?_
  have hopen : (done :: js).Perm (misses ++ [done]) :=
    (hjs.cons done).trans (List.perm_append_singleton done misses).symm
  refine (delivers_asm (h₂.linkAll hopen (fun j hj => ?_) (.head _))).bind fun _ σ₃ h₃ => ?_
  · obtain ⟨A, hA, hc⟩ := hmiss j hj
    exact ⟨A, List.mem_cons_of_mem _ hA, hc⟩
  refine delivers_read ?_
  refine (delivers_asm (h₃.branch_fast (g := .epoch _) trivial)).bind fun changed σ₄ h₄ => ?_
  refine (delivers_asm (h₄.linkExit (.refl _) (.head _) (hP.trans (L.shape_covers_bound f)))).bind
    fun _ σ₅ h₅ => ?_
  have finish : ∀ σ' : Sketch, σ'.Routing f L ((P.withReg? tag).withReg payload) Shape.all
      ((changed, P) :: (done, (P.withReg? tag).withReg payload) :: ss) ((miss, P) :: ts) [done]
      true false → Delivers c (do link done (← label .fast)) σ' fun _ σ'' =>
        σ''.Armed f L ((P.withReg? tag).withReg payload) [] := by
    intro σ' h'
    refine (delivers_asm (h'.label_fast _ (.refl _) h'.lent)).bind fun l σ₈ h₈ => ?_
    exact (delivers_asm (h₈.link (.refl _) (.tail _ (.head _)) (.head _) (.refl _))).mono
      fun _ σ₉ h₉ => h₉.armed
  cases tag with
  | none =>
    refine (delivers_asm (h₅.emit_fast rfl rfl ?_)).bind fun _ σ₇ h₇ => finish σ₇ h₇
    exact ⟨trivial, hpayload⟩
  | some r =>
    refine (delivers_asm (h₅.emit_fast rfl rfl ?_)).bind fun _ σ₇ h₇ => ?_
    · exact ⟨trivial, htag r rfl⟩
    refine (delivers_asm (h₇.emit_fast rfl rfl ?_)).bind fun _ σ₈ h₈ => finish σ₈ h₈
    exact ⟨trivial, hpayload⟩

/-- Misses are answered out of line, or wait for the slow path. -/
theorem linkMisses_delivers {types : TypeSet} :
    Delivers c (linkMisses types misses tag payload) σ fun _ σ' =>
      σ'.Armed f L ((P.withReg? tag).withReg payload) [] := by
  unfold linkMisses
  split
  · exact missesReadUndefined_delivers h hP hjs hmiss htag hpayload
  · have hopen : misses.Perm (misses ++ []) := by rw [List.append_nil]
    refine (linkExits_delivers (h.perm (hjs.trans hopen)) fun j hj => ?_).mono ?_
    · obtain ⟨A, hA, hc⟩ := hmiss j hj
      exact ⟨A, hA, hc.trans (hP.trans (L.shape_covers_bound f))⟩
    · rintro - σ' ⟨w', h'⟩
      exact h'.armed

end Dense

/-- What was read is pushed. -/
theorem pushRead_delivers {tag : Option Reg} {payload : Reg}
    (h : σ.Releasing slow b n { Loans.none with temps := payload :: tag.toList } P)
    (htag : ∀ r, tag = some r → r ≠ payload ∧ P.reg r)
    (hnone : tag = none → types.knownType.tag?.isSome) (hP : P.reg payload) :
    Delivers c (liftM (pushRead tag payload types)) σ fun _ σ' =>
      σ'.Releasing slow b (n + 1) Loans.none P := by
  refine release_delivers h ((FrameM.pushRead_settles (fun r hr => ?_) hnone
    (h.loans ▸ List.mem_cons_self) (h.fast.reg _ hP)).mono ?_)
  · refine ⟨(htag r hr).1, ?_, h.fast.reg _ (htag r hr).2⟩
    rw [h.loans, hr]
    exact List.mem_cons_of_mem _ List.mem_cons_self
  · rintro - f' L' ⟨rfl, hsp⟩
    refine ⟨?_, hsp.trans (congrArg (· + 1) h.sp)⟩
    rw [h.loans]
    cases tag <;> simp [Loans.dropTemp?, Loans.dropTemp, Loans.none]

/-- Reading an element of an array. -/
theorem getDense_delivers (hσ : σ.Clean) (hn : σ.frame.stackBase + 2 ≤ σ.frame.sp)
    (h : Accessible σ.frame obj key) (hkey : σ.frame.knownType key ≠ .string) :
    Delivers c (getDense obj key packed) σ fun _ σ' => σ'.Clean ∧
      σ'.frame.sp = σ.frame.sp - 2 + 1 := by
  refine delivers_bind (pushedTypes_delivers fun types => ?_)
  refine delivers_bind (isHoisted_delivers fun hoisted => ?_)
  refine operands_delivers hσ h ?_
  rintro ⟨objReg, objPins⟩ loc M σ₂ h₂ hM
  have hcount := hM.count
  cases hi : loc.index with
  | none => exact absurd (hM.string hi) hkey
  | some i =>
  refine delivers_bind (denseIndex_delivers hi ?_)
  refine (tagReg?_delivers h₂ (by simp only [Reg.count]; omega)).bind ?_
  rintro tag σ₃ ⟨h₃, htag, hnone⟩
  refine (alloc_delivers h₃ ?_).bind ?_
  · have : tag.toList.length ≤ 1 := by cases tag <;> simp
    simp only [Loans.count, Loans.addTemp?, List.length_append, Reg.count] at hcount ⊢
    omega
  rintro payload σ₄ ⟨h₄, hpayload, hne₄⟩
  have hne : payload ∉ tag.toList ∧ payload ∉ M.temps := by
    simpa [Loans.addTemp?, not_or] using hne₄
  refine delivers_armed h₄ fun _ ha₄ => ?_
  have hv := h₄.view
  have hacc := h.of_view hv
  refine (guardIntKey_delivers ha₄ hacc.key_lt fun _ => ?_).bind ?_
  · rw [hv.knownType]
    exact (hM.index i hi).2
  rintro - σ₅ ⟨ha₅, -⟩
  refine (exitUnlessArray_delivers ha₅ (hM.obj _)).bind ?_
  rintro - σ₆ ⟨ha₆, -⟩
  refine (checkBounds_delivers (ha₆.routing (.refl _)) (hM.obj _) ((hM.index i hi).1 _)).bind ?_
  rintro past σ₇ ⟨h₇, -⟩
  refine (loadDense_delivers h₇ (hM.obj _) ((hM.index i hi).1 _) (fun r hr => (htag r hr).1)
    hpayload).bind fun holes σ₈ h₈ => ?_
  refine (linkMisses_delivers h₈ (.refl _) ?_ (fun j hj => ⟨_, ?_, .refl _⟩)
    (fun r hr => (htag r hr).1) hpayload).bind fun _ σ₉ ha₉ => ?_
  · simpa using List.perm_append_comm
  · simpa [or_comm] using hj
  refine (slowCall_delivers ha₉).bind fun _ σ₁₀ h₁₀ => ?_
  refine (releaseAccess_delivers h₁₀ hM.nodup fun r hr => ?_).bind fun _ σ₁₁ h₁₁ => ?_
  · exact List.mem_cons_of_mem _ (List.mem_append_right _ (hM.temps ▸ hr))
  rw [hM.release (L := (M.addTemp? tag).addTemp payload) (payload :: tag.toList) rfl ?_ rfl
    (fun _ => id) hM.ftemps hM.fpins hM.ffull] at h₁₁
  · refine (popN_delivers h₁₁ ?_).bind fun _ σ₁₂ h₁₂ => ?_
    · rw [hv.sp, hv.stackBase]
      exact hn
    refine (pushRead_delivers h₁₂ (fun r hr => ⟨?_, ?_⟩) hnone (.inl rfl)).bind fun _ σ₁₃ h₁₃ => ?_
    · rintro rfl
      exact hne.1 (by simp [hr])
    · rw [hr]
      exact .inr (.inl rfl)
    exact (rejoin_delivers h₁₃).bind fun _ _ h₁₄ => delivers_pure (hv.sp ▸ h₁₄)
  · simpa [hne.2] using fun r hr => (htag r hr).2

/-! ### Writing to an array -/

section Dense

variable {S : Shape} {ss : List (Jump × Shape)} {ts : List (Label × Shape)} {p : Bool} {r : Reg}
  {i : IndexKey} {src : Source}

/-- A hole is left to the slow path. -/
theorem exitOnHole_delivers {packed : Bool} (h : σ.Routing f L P S ss ts js w p) (hr : P.reg r)
    (hi : i.Reads P) :
    Delivers c (liftM (exitOnHole packed r i)) σ fun _ σ' =>
      ∃ w', σ'.Routing f L P S ss ts js w' p := by
  unfold exitOnHole
  cases packed with
  | true => exact delivers_pure ⟨w, h⟩
  | false =>
    rw [if_neg Bool.false_ne_true, liftM_bind]
    refine (delivers_asm (h.branch_fast (g := .hole r i) ⟨hr, hi⟩)).bind fun j σ₁ h₁ => ?_
    refine (delivers_asm (h₁.linkExit (.refl _) (.head _) h.bound)).mono fun _ σ₂ h₂ =>
      ⟨true, ?_⟩
    exact h₂.mono (List.subset_cons_self _ _) (List.Subset.refl _)

variable {grown : Option Reg} {stored : Label}

theorem grownLength_delivers {Q : Operand → Sketch → Prop} (hg : ∀ k, i = .reg k → grown.isSome)
    (h : ∀ o, (∃ w, o = .imm w) ∨ (∃ r k, i = .reg k ∧ grown = some r ∧ o = .reg r) → Q o σ) :
    Delivers c (grownLength i grown) σ Q := by
  unfold grownLength
  cases i with
  | constant n => exact delivers_pure (h _ (.inl ⟨_, rfl⟩))
  | reg k =>
    obtain ⟨r, rfl⟩ := Option.isSome_iff_exists.1 (hg k rfl)
    exact delivers_pure (h _ (.inr ⟨r, k, rfl, rfl, rfl⟩))

/-- Storing the new length, and going back. -/
theorem storeLength_delivers {o : Operand} {gap full : Jump}
    (h : σ.Routing f L P S ss ts (full :: gap :: js) w false) (hS : S.Covers P)
    (ho : o.Reads (f.limit c.slots) S) (hgap : (gap, P) ∈ ss) (hfull : (full, P) ∈ ss)
    (hstored : (stored, P) ∈ ts) (hr : P.reg r) (hi : i.Reads P) :
    Delivers c (do
      AsmM.emit .slow (.storeExtent r .initializedLength o)
      let longEnough ← AsmM.branch .slow (.extent .length r i (.unsigned .gt))
      AsmM.emit .slow (.storeExtent r .length o)
      let back ← AsmM.branch .slow .always
      AsmM.link longEnough stored
      AsmM.link back stored
      AsmM.linkExit gap
      AsmM.linkExit full) σ fun _ σ' => σ'.Armed f L P js := by
  refine (delivers_asm (h.emit_slow rfl rfl ?_)).bind fun _ σ₁ h₁ => ?_
  · exact ⟨hS.reg _ hr, ho⟩
  refine (delivers_asm (h₁.branch_slow (g := .extent .length r i (.unsigned .gt))
    ⟨hS.reg _ hr, hi.mono hS⟩)).bind fun longEnough σ₂ h₂ => ?_
  refine (delivers_asm (h₂.emit_slow rfl rfl ?_)).bind fun _ σ₃ h₃ => ?_
  · exact ⟨hS.reg _ hr, ho⟩
  refine (delivers_asm (h₃.branch_slow (g := .always) trivial)).bind fun back σ₄ h₄ => ?_
  refine (delivers_asm (h₄.link (.swap _ _ _) (.tail _ (.head _)) hstored hS)).bind
    fun _ σ₅ h₅ => ?_
  refine (delivers_asm (h₅.link (.refl _) (.head _) hstored hS)).bind fun _ σ₆ h₆ => ?_
  refine (delivers_asm (h₆.linkExit (.swap _ _ _) (.tail _ (.tail _ hgap)) h.bound)).bind
    fun _ σ₇ h₇ => ?_
  exact (delivers_asm (h₇.linkExit (.refl _) (.tail _ (.tail _ hfull)) h.bound)).mono
    fun _ σ₈ h₈ => h₈.armed

/-- Storing past the end makes the array longer. -/
theorem extendArray_delivers {past : Jump}
    (h : σ.Routing f L P Shape.all ss ts (past :: js) w false) (hpast : (past, P) ∈ ss)
    (hstored : (stored, P) ∈ ts) (hr : P.reg r) (hi : i.Reads P) (hsrc : src.Reads P)
    (hg : ∀ k, i = .reg k → grown.isSome) (hvalid : ∀ r, grown = some r → r.Valid) :
    Delivers c (extendArray past r i src grown stored) σ fun _ σ' => σ'.Armed f L P js := by
  refine delivers_bind (grownLength_delivers hg fun o ho => ?_)
  refine (delivers_asm (h.label_slow P (Shape.all_covers P))).bind fun start σ₁ h₁ => ?_
  refine (delivers_asm (h₁.link (.refl _) hpast (.head _) (.refl _))).bind fun _ σ₂ h₂ => ?_
  refine (delivers_asm (h₂.branch_slow (g := .extent .initializedLength r i .notEqual)
    ⟨hr, hi⟩)).bind fun gap σ₃ h₃ => ?_
  refine (delivers_asm (h₃.branch_slow (g := .extent .capacity r i (.unsigned .le))
    ⟨hr, hi⟩)).bind fun full σ₄ h₄ => ?_
  refine (delivers_asm (h₄.emit_slow rfl rfl ?_)).bind fun _ σ₅ h₅ => ?_
  · exact ⟨⟨hr, hi⟩, hsrc⟩
  have finish : ∀ {σ' : Sketch} {S : Shape},
      σ'.Routing f L P S ((full, P) :: (gap, P) :: ss) ((start, P) :: ts)
        (full :: gap :: js) w false →
      S.Covers P → o.Reads (f.limit c.slots) S → _ := fun h' hS ho =>
    storeLength_delivers h' hS ho (.tail _ (.head _)) (.head _) (.tail _ hstored) hr hi
  rcases ho with ⟨n, rfl⟩ | ⟨q, k, rfl, hq, rfl⟩
  · cases i <;> exact finish h₅ (.refl P) trivial
  · refine (delivers_asm (h₅.emit_slow rfl rfl ?_)).bind fun _ σ₆ h₆ => ?_
    · exact ⟨hi, hvalid q hq⟩
    refine (delivers_asm (h₆.emit_slow rfl rfl ?_)).bind fun _ σ₇ h₇ => ?_
    · exact ⟨⟨.inl rfl, trivial⟩, hvalid q hq⟩
    exact finish h₇ ((Shape.withReg_covers _ _).trans (Shape.withReg_covers _ _)) (.inl rfl)

end Dense

/-- A register for the new length. -/
theorem grownReg?_delivers {hoisted : Bool} (h : σ.Lent f L) (hroom : L.count < Reg.count) :
    Delivers c (liftM (grownReg? hoisted i)) σ fun o σ' => σ'.Lent f (L.addTemp? o) ∧
      (∀ r, o = some r → r.Valid ∧ r ∉ L.temps) ∧
      (hoisted = false → ∀ k, i = .reg k → o.isSome) := by
  unfold grownReg?
  split
  · rw [liftM_frame_bind]
    refine (alloc_delivers h hroom).bind ?_
    rintro r σ₁ ⟨h₁, hr⟩
    exact delivers_pure ⟨h₁, by rintro _ ⟨⟩; exact hr, fun _ _ _ => rfl⟩
  · next hne =>
    refine delivers_pure ⟨h, nofun, fun hh k hk => (hne k hh hk).elim⟩

/-- Assigning an element of an array. -/
theorem setDense_delivers (hσ : σ.Clean) (hn : σ.frame.stackBase + 3 ≤ σ.frame.sp)
    (h : Accessible σ.frame obj key) (hkey : σ.frame.knownType key ≠ .string)
    (hval : value < σ.frame.sp) :
    Delivers c (setDense obj key value packed) σ fun _ σ' => σ'.Clean ∧
      σ'.frame.sp = σ.frame.sp - 2 := by
  refine delivers_bind (isHoisted_delivers fun hoisted => ?_)
  refine operands_delivers hσ h ?_
  rintro ⟨objReg, objPins⟩ loc M σ₁ h₁ hM
  have hcount := hM.count
  cases hi : loc.index with
  | none => exact absurd (hM.string hi) hkey
  | some i =>
  refine delivers_bind (denseIndex_delivers hi ?_)
  refine (source_delivers h₁ (by simp only [Reg.count]; omega) (by rw [hM.fcount]; decide)
    hval).bind fun src σ₂ h₂ => ?_
  refine (grownReg?_delivers h₂ ?_).bind ?_
  · cases src <;> simp [Loans.pinSource, Reg.count] <;> omega
  rintro grown σ₃ ⟨h₃, hgrown, hsome⟩
  refine delivers_armed h₃ fun _ ha₃ => ?_
  have hv := h₃.view
  have hacc := h.of_view hv
  have hcovers := Loans.shape_pinSource M src σ₃.frame
  have hobj := hcovers.reg _ (hM.obj _)
  have hindex := ((hM.index i hi).1 _).mono hcovers
  refine (guardIntKey_delivers ha₃ hacc.key_lt fun _ => ?_).bind ?_
  · rw [hv.knownType]
    exact (hM.index i hi).2
  rintro - σ₄ ⟨ha₄, -⟩
  refine (exitUnlessArray_delivers ha₄ hobj).bind ?_
  rintro - σ₅ ⟨ha₅, -⟩
  refine (checkBounds_delivers (ha₅.routing (.refl _)) hobj hindex).bind ?_
  rintro past σ₆ ⟨h₆, hpast⟩
  refine (exitOnHole_delivers h₆ hobj hindex).bind ?_
  rintro - σ₇ ⟨w', h₇⟩
  refine (delivers_asm (h₇.emit_fast rfl rfl ?_)).bind fun _ σ₈ h₈ => ?_
  · exact ⟨⟨hobj, hindex⟩, Loans.reads_pinSource M src _⟩
  refine (delivers_asm (h₈.label_fast _ (.refl _) (.refl _))).bind fun stored σ₉ h₉ => ?_
  have linked : Delivers c (linkPast past objReg i src grown stored) σ₉ fun _ σ' =>
      σ'.Armed σ₃.frame ((M.pinSource src).addTemp? grown)
        (((M.pinSource src).addTemp? grown).shape σ₃.frame) [] := by
    rcases hpast with rfl | ⟨hh, j, rfl⟩
    · exact delivers_pure h₉.armed
    · exact (extendArray_delivers h₉ (.head _) (.head _) hobj hindex
        (Loans.reads_pinSource M src _) (hsome hh) fun r hr => (hgrown r hr).1).bind
        fun _ σ' h' => delivers_pure h'
  refine linked.bind fun _ σ₁₀ ha₁₀ => ?_
  refine (slowCall_delivers ha₁₀).bind fun _ σ₁₁ h₁₁ => ?_
  have htemps : (M.pinSource src).temps = M.temps := by cases src <;> rfl
  have hfresh : ∀ r, grown = some r → r ∉ M.temps := fun r hr => htemps ▸ (hgrown r hr).2
  refine (finishWrite_delivers h₁₁ ?_ ?_ (hM.release_write src _ hfresh) ?_).bind fun _ _ h₁₂ =>
    delivers_pure (hv.sp ▸ h₁₂)
  · refine List.nodup_append.2 ⟨hM.nodup, by cases grown <;> simp, ?_⟩
    rintro q hq r hr rfl
    exact hfresh q (by simpa using hr) (hM.temps ▸ hq)
  · intro r hr
    have hall : (((M.pinSource src).addTemp? grown).unpinSource src).temps =
      grown.toList ++ M.temps := by cases src <;> rfl
    rw [hall, hM.temps]
    simpa [or_comm] using hr
  · rw [hv.sp, hv.stackBase]
    exact hn

/-! ### Choosing the path -/

theorem accessPath_accessible {path : AccessPath} (ho : obj < f.sp) (hk : key < f.sp)
    (h : accessPath heap f obj key = path) (hpath : path ≠ .generic) : Accessible f obj key := by
  refine ⟨ho, hk, ?_, ?_⟩ <;>
  · unfold accessPath at h
    grind

theorem ne_string_of_dense (h : accessPath heap f obj key = .dense packed) :
    f.knownType key ≠ .string := by
  unfold accessPath at h
  grind

/-- Every way to read an element. -/
theorem getElem_delivers (hσ : σ.Clean) (hn : σ.frame.stackBase + 2 ≤ σ.frame.sp) :
    Delivers c getElem σ fun _ σ' => σ'.Clean ∧ σ'.frame.sp = σ.frame.sp - 2 + 1 := by
  have ho := peek_lt (n := 2) (by decide) hn
  have hk : σ.frame.peek 1 < σ.frame.sp := peek_lt (by decide) (by lia)
  refine delivers_queryFrame (delivers_read ?_)
  split
  · exact emitStub_delivers .getElem hσ hn
  · next hpath =>
    exact getDense_delivers hσ hn (accessPath_accessible ho hk hpath nofun)
      (ne_string_of_dense hpath)
  · next hpath => exact getCached_delivers hσ hn (accessPath_accessible ho hk hpath nofun)

/-- Every way to assign an element. -/
theorem setElem_delivers (hσ : σ.Clean) (hn : σ.frame.stackBase + 3 ≤ σ.frame.sp) :
    Delivers c setElem σ fun _ σ' => σ'.Clean ∧ σ'.frame.sp = σ.frame.sp - 3 + 1 := by
  have ho := peek_lt (n := 3) (by decide) hn
  have hk : σ.frame.peek 2 < σ.frame.sp := peek_lt (by decide) (by lia)
  have hv : σ.frame.peek 1 < σ.frame.sp := peek_lt (by decide) (by lia)
  have hsp : σ.frame.sp - 2 = σ.frame.sp - 3 + 1 := by lia
  refine delivers_queryFrame (delivers_read ?_)
  split
  · exact emitStub_delivers .setElem hσ hn
  · next hpath =>
    exact hsp ▸ setDense_delivers hσ hn (accessPath_accessible ho hk hpath nofun)
      (ne_string_of_dense hpath) hv
  · next hpath =>
    exact hsp ▸ setCached_delivers hσ hn (accessPath_accessible ho hk hpath nofun) hv

end CompileM

end FastPath
