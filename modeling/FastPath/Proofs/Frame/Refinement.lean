import FastPath.Proofs.Frame.Operation

/-!
# The tracker refines an array of values

Whatever the tracker decides about registers and memory, the frame stands for an array of
values, and every operation does to the array what its name says: the code that it emits runs
from every machine that is consistent with the frame, and ends in one that is consistent with
the new frame.
-/

namespace FastPath

open FrameM Frame RegisterFile

/-! ### Arrays as assignments -/

section Lookup

variable {vs : Array Value} {s t : Slot} {v : Value}

theorem lookup_push (vs : Array Value) (v : Value) :
    lookup (vs.push v) = assign (lookup vs) vs.size v := by
  funext s
  simp only [lookup, assign, Array.getElem?_push]
  split <;> rfl

theorem lookup_set (ht : t < vs.size) :
    lookup (vs.setIfInBounds t v) = assign (lookup vs) t v := by
  funext s
  simp only [lookup, assign, Array.getElem?_setIfInBounds]
  by_cases hs : t = s
  · subst hs
    simp [ht]
  · simp [hs, Ne.symm hs]

theorem lookup_pop (hs : s < vs.size - 1) : lookup vs.pop s = lookup vs s := by
  simp only [lookup, Array.getElem?_pop, hs, if_true]

theorem lookup_take {k : Nat} (hs : s < k) : lookup (vs.take k) s = lookup vs s := by
  simp only [lookup, Array.take_eq_extract, Array.getElem?_extract, Nat.zero_add, Nat.sub_zero]
  split
  · rfl
  · next h => rw [Array.getElem?_eq_none (by lia)]

end Lookup

theorem reads_of_toOption {c : Cell} {v : Value} (h : c.decode.toOption = some v) :
    c.Reads v := by
  refine ⟨?_, trivial⟩
  cases hc : c.decode with
  | error e => simp [hc, Except.toOption] at h
  | ok u => simpa [hc, Except.toOption] using h

namespace Operation

/-- What is known after an operation on a frame that stood for `vs`, where `v` is the value
that a push has found. -/
structure Outcome (op : Operation) (f : Frame) (m : Machine) (vs : Array Value) (v : Value)
    (a : Answer) (f' : Frame) (m' : Machine) : Prop where
  size : (op.apply f.varSlot v vs).size = f'.sp
  tracks : f'.Tracks none m' (lookup (op.apply f.varSlot v vs))
  answer : op.Answers f vs a f' m'
  temp : ∀ r, f.regs.binding r = .temp → ¬op.Consumes r →
    f'.regs.binding r = .temp ∧ m'.reg r = m.reg r
  ftemp : ∀ r, f.regs.fbinding r = .temp → ¬op.FConsumes r →
    f'.regs.fbinding r = .temp ∧ m'.freg r = m.freg r
  world : m.SameWorld m'
  continues : f.Continues f'
  base : f.stackBase ≤ f'.sp

variable {op : Operation} {f f' : Frame} {m m' : Machine} {vs : Array Value} {v : Value}
  {a : Answer}

/-- An operation that only moves values between registers and memory. -/
theorem Outcome.of_keeps (hid : op.apply f.varSlot v vs = vs) (hsize : vs.size = f.sp)
    (hbase : f.stackBase ≤ f.sp) (ht : f'.Tracks none m' (lookup vs))
    (hk : f.KeepsTemps m f' m') (he : f.SameExtent f') (ha : op.Answers f vs a f' m') :
    Outcome op f m vs v a f' m' where
  size := by rw [hid, he.sp, hsize]
  tracks := hid.symm ▸ ht
  answer := ha
  temp r hr _ := hk.temp r hr
  ftemp r hr _ := hk.ftemp r hr
  world := hk.world
  continues := he.continues
  base := he.sp ▸ hbase

theorem Outcome.of_loads (hid : op.apply f.varSlot v vs = vs) (hsize : vs.size = f.sp)
    (hbase : f.stackBase ≤ f.sp) (hl : f.Loads none m (lookup vs) f' m')
    (ha : op.Answers f vs a f' m') : Outcome op f m vs v a f' m' :=
  .of_keeps hid hsize hbase hl.tracks hl.keeps.keepsTemps hl.view.sameExtent ha

variable {w : Value}

/-- A push that takes over the registers it consumes. -/
theorem Outcome.of_extends (hpush : op.apply f.varSlot v vs = vs.push w) (hsize : vs.size = f.sp)
    (hbase : f.stackBase ≤ f.sp) (ht : f'.Tracks none m (assign (lookup vs) f.sp w))
    (he : f.Extends f' op.Consumes op.FConsumes) (ha : op.Answers f vs a f' m) :
    Outcome op f m vs v a f' m where
  size := by rw [hpush, Array.size_push, hsize, he.sp]
  tracks := by rw [hpush, lookup_push, hsize]; exact ht
  answer := ha
  temp r hr hc := ⟨(he.binding r hc).trans hr, rfl⟩
  ftemp r hr hc := ⟨(he.fbinding r hc).trans hr, rfl⟩
  world := .refl m
  continues := ⟨he.argCount, he.localCount, he.maxSp ▸ Nat.le_max_left _ _, he.pc, he.baseTypes⟩
  base := by rw [he.sp]; exact Nat.le_succ_of_le hbase

/-- A push that leaves the register file alone. -/
theorem Outcome.of_push (hpush : op.apply f.varSlot v vs = vs.push w) (hsize : vs.size = f.sp)
    (hbase : f.stackBase ≤ f.sp) (ht : f'.Tracks none m (assign (lookup vs) f.sp w))
    (hsp : f'.sp = f.sp + 1) (hregs : f'.regs = f.regs) (hcont : f.Continues f')
    (ha : op.Answers f vs a f' m) :
    Outcome op f m vs v a f' m where
  size := by rw [hpush, Array.size_push, hsize, hsp]
  tracks := by rw [hpush, lookup_push, hsize]; exact ht
  answer := ha
  temp r hr _ := ⟨hregs ▸ hr, rfl⟩
  ftemp r hr _ := ⟨hregs ▸ hr, rfl⟩
  world := .refl m
  continues := hcont
  base := by rw [hsp]; exact Nat.le_succ_of_le hbase

/-- An operation that drops or overwrites slots, so that the array becomes `ws`. -/
theorem Outcome.of_temps {env : Slot → Value} (ws : Array Value)
    (happly : op.apply f.varSlot v vs = ws) (ht : f'.Tracks none m' env) (hsize : ws.size = f'.sp)
    (henv : ∀ s, s < f'.sp → lookup ws s = env s)
    (hk : f.KeepsTemps m f' m') (hcont : f.Continues f') (hbase : f.stackBase ≤ f'.sp)
    (ha : op.Answers f vs a f' m') : Outcome op f m vs v a f' m' where
  size := happly ▸ hsize
  tracks := happly ▸ ht.of_env fun s hl => henv s hl.1
  answer := ha
  temp r hr _ := hk.temp r hr
  ftemp r hr _ := hk.ftemp r hr
  world := hk.world
  continues := hcont
  base := hbase

/-! ### Every kind of operation -/

theorem push_ensures {g : Frame → Frame} {Q : Answer → Frame → Machine → Prop}
    (h : Q (.slot f.sp) (g f) m) : Ensures (run.push g) f m Q :=
  ensures_look (ensures_bind (ensures_update (ensures_pure h)))

section Run

variable (h : f.Tracks none m (lookup vs)) (hsize : vs.size = f.sp) (hbase : f.stackBase ≤ f.sp)

include h hsize hbase

theorem pushConstant_outcome (w : Value) (hfit : f.sp < m.slots.size) :
    Ensures (run (.pushConstant w)) f m (Outcome (.pushConstant w) f m vs v) := by
  refine push_ensures ?_
  exact .of_push rfl hsize hbase (h.pushConstant w hfit) rfl rfl
    ⟨rfl, rfl, Nat.le_max_left _ _, rfl, rfl⟩ rfl

variable {t : KnownType} {types : TypeSet} {s : Slot}

/-- The pushed value is the one in the register. -/
theorem pushTyped_outcome {r : Reg} (hv : (pushTyped t r).pushed? f m = some v)
    (hfit : f.sp < m.slots.size) :
    Ensures (run (.pushTyped t r)) f m (Outcome (.pushTyped t r) f m vs v) := by
  obtain ⟨tag, htag, hv⟩ := Option.bind_eq_some_iff.1 hv
  obtain ⟨p, hp, hdec⟩ := Option.bind_eq_some_iff.1 hv
  have hdecode : ∀ tag', t.tag? = some tag' → Cell.Reads ⟨tag'.word, p⟩ v := by
    intro tag' htag'
    rw [htag] at htag'
    cases htag'
    exact reads_of_toOption hdec
  refine ensures_bind ((pushTyped_ensures h hfit hp hdecode).mono ?_)
  rintro s f' m' ⟨rfl, rfl, -, hext, -, ht⟩
  exact ensures_pure (.of_extends rfl hsize hbase ht hext rfl)

theorem pushDouble_outcome {r : FReg} (hv : (pushDouble r).pushed? f m = some v)
    (hfit : f.sp < m.slots.size) :
    Ensures (run (.pushDouble r)) f m (Outcome (.pushDouble r) f m vs v) := by
  obtain ⟨d, hd, rfl⟩ := Option.map_eq_some_iff.1 hv
  refine ensures_bind ((pushDouble_ensures h hfit hd (Value.same_refl _)).mono ?_)
  rintro s f' m' ⟨rfl, rfl, -, hext, -, ht⟩
  exact ensures_pure (.of_extends rfl hsize hbase ht hext rfl)

/-- The pushed value is the one in the two registers. -/
theorem pushRegs_outcome {rt rp : Reg} (hne : rt ≠ rp)
    (hv : (pushRegs rt rp types).pushed? f m = some v)
    (htype : ∀ tag, types.knownType.tag? = some tag → v.tag = tag) (hfit : f.sp < m.slots.size) :
    Ensures (run (.pushRegs rt rp types)) f m
    (Outcome (.pushRegs rt rp types) f m vs v) := by
  obtain ⟨w, hw, hv⟩ := Option.bind_eq_some_iff.1 hv
  obtain ⟨p, hp, hdec⟩ := Option.bind_eq_some_iff.1 hv
  refine ensures_bind ((pushRegs_ensures (c := ⟨w, p⟩) h hfit hne hw hp
    (reads_of_toOption hdec) htype).mono ?_)
  rintro s f' m' ⟨rfl, rfl, -, -, hext, ht⟩
  exact ensures_pure (.of_extends rfl hsize hbase ht hext rfl)

/-- The pushed value is the one in memory. -/
theorem pushSynced_outcome (hv : (pushSynced types).pushed? f m = some v)
    (htype : types.knownType.Describes v) :
    Ensures (run (.pushSynced types)) f m (Outcome (.pushSynced types) f m vs v) := by
  obtain ⟨c, hc, hdec⟩ := Option.bind_eq_some_iff.1 hv
  refine push_ensures ?_
  have hst : m.Has types.knownType f.sp v :=
    ⟨c, v, hc, reads_of_toOption hdec, .refl htype.2⟩
  exact .of_push rfl hsize hbase (h.pushSynced hst htype) rfl rfl
    ⟨rfl, rfl, Nat.le_max_left _ _, rfl, rfl⟩ rfl

theorem pushCopy_outcome {g : Frame → Frame} (hs : s < f.sp) (hfit : f.sp < m.slots.size)
    (hg : g f = f.pushCopy s) (hpush : op.apply f.varSlot v vs = vs.push (lookup vs s))
    (ha : ∀ f', op.Answers f vs (.slot f.sp) f' m) :
    Ensures (run.push g) f m (Outcome op f m vs v) := by
  refine push_ensures ?_
  rw [hg]
  exact .of_push hpush hsize hbase (h.pushCopy hs hfit) (sp_pushCopy f s)
    (regs_pushCopy f s) (continues_pushCopy f s) (ha _)

omit hbase in
/-- The topmost values are forgotten. -/
theorem popN_outcome {n : Nat} (hn : f.stackBase + n ≤ f.sp) :
    Ensures (run (.popN n)) f m (Outcome (.popN n) f m vs v) := by
  refine ensures_bind (ensures_update (ensures_pure ?_))
  have hle : n ≤ f.sp := Nat.le_trans (Nat.le_add_left _ _) hn
  have hsp := sp_popN n f
  refine .of_temps (vs.take _) rfl (h.popN hle) ?_ ?_ (h.keepsTemps_popN hle)
    (continues_popN n f) ?_ trivial
  · simp only [Array.take_eq_extract, Array.size_extract, hsp]
    lia
  · intro s hs
    exact lookup_take (by lia)
  · lia

theorem pop_outcome (hn : f.stackBase < f.sp) :
    Ensures (run .pop) f m (Outcome .pop f m vs v) := by
  refine ensures_bind (ensures_update (ensures_pure ?_))
  have hpos : 0 < f.sp := Nat.lt_of_le_of_lt (Nat.zero_le _) hn
  have hsp : f.pop.sp = f.sp - 1 := rfl
  refine .of_temps vs.pop rfl (h.pop hpos) ?_ ?_ (h.sound.keepsTemps_pop hpos)
    (continues_pop f) ?_ trivial
  · simp only [Array.size_pop, hsp, hsize]
  · intro s hs
    exact lookup_pop (by lia)
  · lia

theorem store_outcome {t : Slot} (ht : t < f.sp) (hs : s < f.sp) :
    Ensures (run (.store t s)) f m (Outcome (.store t s) f m vs v) := by
  refine ensures_bind ((store_ensures h hs).mono ?_)
  rintro - f' m' ⟨htr, hk, he⟩
  refine ensures_pure
    (.of_temps (vs.setIfInBounds t _) rfl htr ?_ ?_ hk he.continues (he.sp ▸ hbase) trivial)
  · simp only [Array.size_setIfInBounds, hsize, he.sp]
  · intro s' _
    rw [lookup_set (hsize ▸ ht)]

/-- Assigning a variable has the outcome of the specification. -/
theorem storeVar_outcome {x : Bytecode.Var} {popped : Bool} (ht : f.varSlot x < f.sp)
    (hs : f.stackBase < f.sp) :
    Ensures (run (.storeVar x popped)) f m (Outcome (.storeVar x popped) f m vs v) := by
  have hpos : 0 < f.sp := Nat.lt_of_le_of_lt (Nat.zero_le _) hs
  refine ensures_bind ((storeVar_ensures h hpos x popped).mono ?_)
  rintro - f' m' ⟨htr, hk, hc, hsp⟩
  have htop : lookup vs (vs.size - 1) = lookup vs (f.peek 1) := by rw [hsize, peek]
  let ws := vs.setIfInBounds (f.varSlot x) (lookup vs (vs.size - 1))
  refine ensures_pure (.of_temps (if popped then ws.pop else ws) rfl htr ?_ ?_ hk hc ?_
    trivial)
  · cases popped <;> simp [ws, hsize, hsp]
  · intro s' hs'
    cases popped with
    | true =>
      simp only [if_true] at hsp ⊢
      rw [lookup_pop (by simp only [ws, Array.size_setIfInBounds]; lia),
        lookup_set (hsize ▸ ht), htop]
    | false =>
      simp only [Bool.false_eq_true, if_false]
      rw [lookup_set (hsize ▸ ht), htop]
  · rw [hsp]
    split <;> lia

/-- A value is moved down, as in the specification. -/
theorem shimmy_outcome {n : Nat} (hn : f.stackBase + n < f.sp) :
    Ensures (run (.shimmy n)) f m (Outcome (.shimmy n) f m vs v) := by
  have hlt : n < f.sp := Nat.lt_of_le_of_lt (Nat.le_add_left _ _) hn
  refine ensures_bind ((shimmy_ensures h hlt).mono ?_)
  rintro - f' m' ⟨htr, hk, hc, hsp⟩
  have htop : lookup vs (vs.size - 1) = lookup vs (f.peek 1) := by rw [hsize, peek]
  have htarget : vs.size - 1 - n = f.peek (n + 1) := by
    rw [hsize, peek]
    lia
  refine ensures_pure
    (.of_temps ((vs.setIfInBounds _ _).take _) rfl htr ?_ ?_ hk hc ?_ trivial)
  · simp only [Array.take_eq_extract, Array.size_extract, Array.size_setIfInBounds, hsp]
    lia
  · intro s' hs'
    rw [lookup_take (by lia), htarget, lookup_set (by simp only [peek]; lia), htop]
  · lia

/-- An exchange has the outcome of the specification. -/
theorem swap_outcome (hn : f.stackBase + 1 < f.sp) (hfit : f.sp < m.slots.size) :
    Ensures (run .swap) f m (Outcome .swap f m vs v) := by
  have hlt : 1 < f.sp := Nat.lt_of_le_of_lt (Nat.le_add_left _ _) hn
  refine ensures_bind ((swap_ensures h hlt hfit).mono ?_)
  rintro - f' m' ⟨htr, hk, hc, hsp, -⟩
  have htop : vs.size - 1 = f.peek 1 := by rw [hsize, peek]
  have hbelow : vs.size - 1 - 1 = f.peek 2 := by
    rw [hsize, peek]
    lia
  refine ensures_pure
    (.of_temps ((vs.setIfInBounds _ _).setIfInBounds _ _) rfl htr ?_ ?_ hk hc (hsp ▸ hbase) trivial)
  · simp only [Array.size_setIfInBounds, hsize, hsp]
  · intro s' _
    rw [hbelow, htop, lookup_set, lookup_set]
    · simp only [peek]
      lia
    · simp only [peek, Array.size_setIfInBounds]
      lia

omit h in
/-- An operation whose answer is read off a postcondition that moves values around. -/
theorem loads_outcome {α : Type} {x : FrameM α} {k : α → Answer} {Q : α → Frame → Machine → Prop}
    (hx : Ensures x f m fun b f' m' => f.Loads none m (lookup vs) f' m' ∧ Q b f' m')
    (hid : op.apply f.varSlot v vs = vs)
    (ha : ∀ b f' m', f.Loads none m (lookup vs) f' m' → Q b f' m' → op.Answers f vs (k b) f' m') :
    Ensures (do return k (← x)) f m (Outcome op f m vs v) := by
  refine ensures_bind (hx.mono ?_)
  rintro b f' m' ⟨hl, hq⟩
  exact ensures_pure (.of_loads hid hsize hbase hl (ha b f' m' hl hq))

/-- A temporary is given back. -/
theorem free_outcome {r : Reg} :
    Ensures (run (.free r)) f m (Outcome (.free r) f m vs v) := by
  refine ensures_bind ((free_ensures h).mono ?_)
  rintro - f' m' ⟨-, rfl, rfl, ht⟩
  refine ensures_pure
    { size := hsize
      tracks := ht
      answer := trivial
      temp := fun q hq hne => ⟨?_, rfl⟩
      ftemp := fun q hq _ => ⟨by simpa using hq, rfl⟩
      world := .refl _
      continues := ⟨rfl, rfl, Nat.le_refl _, rfl, rfl⟩
      base := hbase }
  have hne : q ≠ r := hne
  simp [hq, Ne.symm hne]

/-- A double temporary is given back. -/
theorem freeDouble_outcome {r : FReg} :
    Ensures (run (.freeDouble r)) f m (Outcome (.freeDouble r) f m vs v) := by
  refine ensures_bind ((freeDouble_ensures h).mono ?_)
  rintro - f' m' ⟨-, rfl, rfl, ht⟩
  refine ensures_pure
    { size := hsize
      tracks := ht
      answer := trivial
      temp := fun q hq _ => ⟨by simpa using hq, rfl⟩
      ftemp := fun q hq hne => ⟨?_, rfl⟩
      world := .refl _
      continues := ⟨rfl, rfl, Nat.le_refl _, rfl, rfl⟩
      base := hbase }
  have hne : q ≠ r := hne
  simp [hq, Ne.symm hne]

/-- A payload is in the register that is answered. -/
theorem dataReg_outcome (hs : s < f.sp) :
    Ensures (run (.dataReg s)) f m (Outcome (.dataReg s) f m vs v) := by
  have hl := live_of_lt hs
  refine loads_outcome hsize hbase (dataReg_ensures h hl) rfl ?_
  rintro r f' m' hloads ⟨hown, hdata⟩
  obtain ⟨hlb, henv, -⟩ := h.backing hl
  have hown' := (hloads.view.role (f.backing s)).trans hown
  obtain ⟨c, u, hw, hu, hfit⟩ := hloads.tracks.words (hloads.view.live.2 hlb) hown'
    (by simp [hdata])
  exact ⟨c, hw.payload_reg hdata, u, hu.1, henv ▸ hfit.same⟩

/-- A tag is in the register that is answered. -/
theorem tagReg_outcome (hs : s < f.sp) :
    Ensures (run (.tagReg s)) f m (Outcome (.tagReg s) f m vs v) := by
  have hl := live_of_lt hs
  refine loads_outcome hsize hbase (tagReg_ensures h hl) rfl ?_
  rintro r f' m' hloads ⟨hown, htype, htag⟩
  obtain ⟨hlb, henv, -⟩ := h.backing hl
  have hlb' := hloads.view.live.2 hlb
  have hown' := (hloads.view.role (f.backing s)).trans hown
  have htype' := (hloads.view.type (f.backing s)).trans htype
  obtain ⟨c, u, hw, hu, hfit⟩ := hloads.tracks.words hlb' hown' (by
    intro q hq
    exact absurd (htype'.symm.trans (hloads.tracks.sound.freg_type _ q hlb' hq)) (by simp))
  exact ⟨c, hw.tag_reg (by rw [htype']; rfl) htag, u, hu.1, henv ▸ hfit.same⟩

/-- A number is in the register that is answered. -/
theorem doubleReg_outcome (hs : s < f.sp) :
    Ensures (run (.doubleReg s)) f m (Outcome (.doubleReg s) f m vs v) := by
  have hl := live_of_lt hs
  refine loads_outcome hsize hbase (doubleReg_ensures h hl) rfl ?_
  rintro r f' m' hloads ⟨hown, -, hdata⟩
  obtain ⟨hlb, henv, -⟩ := h.backing hl
  have hlb' := hloads.view.live.2 hlb
  have hown' := (hloads.view.role (f.backing s)).trans hown
  obtain ⟨d, hd, hv, -⟩ :=
    (Entry.owns_freg hdata).1 ((holds_own hown').1 (hloads.tracks.holds _ hlb'))
  exact ⟨d, hd, henv ▸ hv⟩

omit h in
/-- A word of a value is handed out in a temporary. -/
theorem copyWord_outcome {x : FrameM Reg} {word : Cell → UInt64}
    (hx : Ensures x f m (HandsOut f none m (lookup vs) fun w =>
      ∃ c, f.Represents (lookup vs) s c ∧ word c = w)) (hid : op.apply f.varSlot v vs = vs)
    (ha : ∀ r f' m', Fresh f f' r → (∃ c : Cell, m'.reg r = some (word c) ∧
      c.Encodes (lookup vs s)) → op.Answers f vs (.reg r) f' m') :
    Ensures (do return Answer.reg (← x)) f m (Outcome op f m vs v) := by
  refine loads_outcome hsize hbase hx hid ?_
  rintro r f' m' - ⟨htemp, hheld, w, hw, c, ⟨u, hu, hfit⟩, rfl⟩
  exact ha r f' m' ⟨htemp, hheld⟩ ⟨c, hw, u, hu.1, hfit.same⟩

theorem copyNumber_outcome (hs : s < f.sp) (hnum : (lookup vs s).isNumber) :
    Ensures (run (.copyNumber s)) f m (Outcome (.copyNumber s) f m vs v) := by
  have hl := live_of_lt hs
  refine loads_outcome hsize hbase (copyNumber_ensures h hl) rfl ?_
  rintro r f' m' - ⟨htemp, hheld, d, hd, hv⟩
  exact ⟨⟨htemp, hheld⟩, d, hd, hv hnum⟩

theorem unpinSource_outcome (src : Source) :
    Ensures (run (.unpinSource src)) f m (Outcome (.unpinSource src) f m vs v) := by
  refine ensures_bind ((unpinSource_ensures h src).mono ?_)
  rintro - f' m' ⟨rfl, ht, hview, hb, hf⟩
  refine ensures_pure (.of_keeps rfl hsize hbase ht ?_ hview.sameExtent trivial)
  exact ⟨fun r hr => ⟨(hb r).trans hr, rfl⟩, fun r hr => ⟨(hf r).trans hr, rfl⟩, .refl _⟩

omit h in
theorem shuffles_outcome {x : FrameM Unit} (hid : op.apply f.varSlot v vs = vs)
    (ha : ∀ f' m', op.Answers f vs .done f' m')
    (hx : Ensures x f m fun _ f' m' => f.Shuffles none m (lookup vs) f' m') :
    Ensures (do x; return Answer.done) f m (Outcome op f m vs v) := by
  refine ensures_bind (hx.mono ?_)
  intro _ f' m' hshuf
  exact ensures_pure (.of_keeps hid hsize hbase hshuf.tracks hshuf.keeps.keepsTemps
    hshuf.sameExtent (ha f' m'))

theorem syncAndKill_outcome :
    Ensures (run .syncAndKill) f m (Outcome .syncAndKill f m vs v) := by
  refine ensures_bind ((syncAndKill_ensures h).mono ?_)
  rintro - f' m' ⟨ht, hview, hm, hlive, -⟩
  have htemps := tempCount_of_liveFault hlive
  refine ensures_pure (.of_keeps rfl hsize hbase ht ?_ hview.sameExtent trivial)
  exact ⟨fun r hr => absurd hr (binding_ne_temp htemps r),
    fun r hr => absurd hr (fbinding_ne_temp htemps r), hm.world⟩

/-- A type that holds may be learnt. -/
theorem learnType_outcome (hs : s < f.sp) (hk : f.knownType s = .unknown)
    (ht : ∀ tag, t.tag? = some tag → (lookup vs s).tag = tag) :
    Ensures (run (.learnType s t)) f m (Outcome (.learnType s t) f m vs v) := by
  refine ensures_bind ((learnType_ensures h hs hk ht).mono ?_)
  rintro - f' m' ⟨rfl, rfl, htr⟩
  refine ensures_pure
    (.of_keeps rfl hsize hbase htr ?_ ⟨rfl, rfl, rfl, rfl, rfl, rfl⟩ trivial)
  refine ⟨fun r hr => ⟨?_, rfl⟩, fun r hr => ⟨?_, rfl⟩, .refl _⟩
  · have htag := h.sound.tag_iff (f.backing s) r
    have hlb := (h.backing (s := s) ⟨hs, by simp⟩).1
    have hreg := binding_freeTag f.regs (f.entry (f.backing s)).tag r
    change (freeTag f.regs (f.entry (f.backing s)).tag).binding r = .temp
    grind
  · exact (fbinding_freeTag f.regs _ r).trans hr

end Run

/-! ### One operation -/

/-- One operation on a frame that tracks a machine. -/
theorem run_ensures (op : Operation) (h : f.Tracks none m (lookup vs)) (hsize : vs.size = f.sp)
    (hbase : f.stackBase ≤ f.sp) (hvalid : op.Valid f) (hfits : op.Fits f m)
    (htrue : op.Truthful f m) :
    Ensures op.run f m (Outcome op f m vs ((op.pushed? f m).getD .undefined)) := by
  have hlive : ∀ {s}, s < f.sp → f.Live none s := fun hs => ⟨hs, by simp⟩
  cases op with
  | pushConstant w => exact pushConstant_outcome h hsize hbase w hfits
  | pushTyped t r =>
    obtain ⟨v, hv⟩ := Option.isSome_iff_exists.1 htrue
    rw [hv]
    exact pushTyped_outcome h hsize hbase hv hfits
  | pushDouble r =>
    obtain ⟨v, hv⟩ := Option.isSome_iff_exists.1 htrue
    rw [hv]
    exact pushDouble_outcome h hsize hbase hv hfits
  | pushRegs rt rp types =>
    obtain ⟨v, hv, htag⟩ := htrue
    rw [hv]
    exact pushRegs_outcome h hsize hbase hvalid hv htag hfits
  | pushSynced types =>
    obtain ⟨v, hv, hdesc⟩ := htrue
    rw [hv]
    exact pushSynced_outcome h hsize hbase hv hdesc
  | pushCopy s | pushVar x =>
    exact pushCopy_outcome h hsize hbase hvalid hfits rfl rfl fun _ => rfl
  | dup =>
    exact pushCopy_outcome h hsize hbase (Nat.sub_lt hvalid Nat.one_pos) hfits rfl
      (by rw [← hsize]; rfl) fun _ => rfl
  | pop => exact pop_outcome h hsize hbase hvalid
  | popN n => exact popN_outcome h hsize hvalid
  | alloc =>
    exact loads_outcome hsize hbase (alloc_ensures h) rfl fun _ _ _ _ hq => hq.2
  | allocDouble =>
    exact loads_outcome hsize hbase (allocDouble_ensures h) rfl fun _ _ _ _ hq => hq.2
  | take r =>
    refine ensures_bind ((take_ensures h hvalid).mono ?_)
    rintro r f' m' ⟨rfl, hl, htemp, -⟩
    exact ensures_pure (.of_loads rfl hsize hbase hl ⟨rfl, htemp⟩)
  | free r => exact free_outcome h hsize hbase
  | freeDouble r => exact freeDouble_outcome h hsize hbase
  | dataReg s => exact dataReg_outcome h hsize hbase hvalid
  | tagReg s => exact tagReg_outcome h hsize hbase hvalid
  | doubleReg s => exact doubleReg_outcome h hsize hbase hvalid
  | copyData s =>
    exact copyWord_outcome hsize hbase (copyData_ensures h (hlive hvalid)) rfl
      fun _ _ _ hf hw => ⟨hf, hw⟩
  | copyTag s =>
    exact copyWord_outcome hsize hbase (copyTag_ensures h (hlive hvalid)) rfl
      fun _ _ _ hf hw => ⟨hf, hw⟩
  | copyNumber s =>
    obtain ⟨u, hu, hfit⟩ := h.value hvalid.1
    refine copyNumber_outcome h hsize hbase hvalid.1 ?_
    rw [← Value.same_isNumber hfit.same]
    exact htrue u hu
  | source s =>
    exact loads_outcome hsize hbase (source_ensures h (hlive hvalid)) rfl
      fun _ _ _ _ hq => hq
  | unpinSource src => exact unpinSource_outcome h hsize hbase src
  | uncopy s =>
    exact shuffles_outcome hsize hbase rfl (fun _ _ => trivial)
      ((uncopy_ensures h).mono fun _ _ _ hq => hq.1)
  | separate lhs rhs =>
    exact shuffles_outcome hsize hbase rfl (fun _ _ => trivial)
      (separate_ensures h (hlive hvalid.2))
  | store t s => exact store_outcome h hsize hbase hvalid.1 hvalid.2
  | storeVar x popped => exact storeVar_outcome h hsize hbase hvalid.1 hvalid.2
  | shimmy n => exact shimmy_outcome h hsize hbase hvalid
  | swap => exact swap_outcome h hsize hbase hvalid hfits
  | syncEntry s =>
    refine ensures_bind ((syncEntry_ensures h (hlive hvalid)).mono ?_)
    rintro - f' m' ⟨hl, -⟩
    exact ensures_pure (.of_loads rfl hsize hbase hl trivial)
  | syncAll =>
    refine ensures_bind ((syncAll_ensures h).mono ?_)
    rintro - f' m' ⟨hl, -⟩
    exact ensures_pure (.of_loads rfl hsize hbase hl trivial)
  | syncAndKill => exact syncAndKill_outcome h hsize hbase
  | learnType s t =>
    obtain ⟨u, hu, hfit⟩ := h.value hvalid.1
    refine learnType_outcome h hsize hbase hvalid.1 hvalid.2 fun tag htag => ?_
    rw [← hfit.eq (by simp [hvalid.2])]
    exact htrue u tag hu htag

/-! ### Pushes of temporaries -/

section Pushes

variable {code : Array Inst} {s : Slot} {e : Emission}

/-- Only temporaries are pushed. -/
theorem pushTyped_ok {t : KnownType} {r : Reg}
    (h : FrameM.pushTyped t r ⟨f, code⟩ = .ok s e) :
    t.tag?.isSome ∧ f.regs.binding r = .temp := by
  unfold FrameM.pushTyped at h
  cases ht : t.tag? with
  | none =>
    rw [ht] at h
    cases h
  | some tag =>
    simp only [ht, Option.isNone_some, Bool.false_eq_true, if_false, FrameM.bind_run,
      FrameM.frame_run] at h
    by_cases htemp : f.regs.binding r = .temp
    · exact ⟨rfl, htemp⟩
    · rw [if_neg htemp] at h
      cases h

theorem pushDouble_ok {r : FReg} (h : FrameM.pushDouble r ⟨f, code⟩ = .ok s e) :
    f.regs.fbinding r = .temp := by
  unfold FrameM.pushDouble at h
  simp only [FrameM.bind_run, FrameM.frame_run] at h
  by_cases htemp : f.regs.fbinding r = .temp
  · exact htemp
  · rw [if_neg htemp] at h
    cases h

/-- Only temporaries are pushed. -/
theorem pushRegs_ok {rt rp : Reg} {types : TypeSet} (hne : rt ≠ rp)
    (h : FrameM.pushRegs rt rp types ⟨f, code⟩ = .ok s e) :
    f.regs.binding rt = .temp ∧ f.regs.binding rp = .temp := by
  unfold FrameM.pushRegs at h
  split at h
  · unfold FrameM.free at h
    simp only [FrameM.bind_run, FrameM.frame_run] at h
    by_cases htag : f.regs.binding rt = .temp
    · rw [if_pos htag] at h
      simp only [FrameM.updateRegs_run] at h
      split at h
      · next s' e hx =>
        obtain ⟨-, hpay⟩ := pushTyped_ok hx
        refine ⟨htag, ?_⟩
        simpa [hne] using hpay
      · cases h
    · rw [if_neg htag] at h
      cases h
  · simp only [FrameM.bind_run, FrameM.frame_run] at h
    by_cases htag : f.regs.binding rt = .temp
    · rw [if_pos htag] at h
      by_cases hpay : f.regs.binding rp = .temp
      · exact ⟨htag, hpay⟩
      · simp only [if_neg hpay] at h
        cases h
    · rw [if_neg htag] at h
      cases h

end Pushes

end Operation

/-- For every valid operation that succeeds there is a machine that it can be run on. -/
theorem Operation.exists_machine (op : Operation) {f f' : Frame} {a : Operation.Answer}
    {code code' : Array Inst} (hs : f.Sound none) (hvalid : op.Valid f)
    (hrun : op.run ⟨f, code⟩ = .ok a ⟨f', code'⟩) :
    ∃ m, (∃ env, f.Tracks none m env) ∧ op.Fits f m ∧ op.Truthful f m := by
  have hsample : ∀ k, f.Tracks none (f.sample k (f.sp + 1)) (f.sampleValue k) :=
    fun k => hs.tracks_sample (Nat.le_succ _)
  have hroom : ∀ k, f.sp < (f.sample k (f.sp + 1)).slots.size := by
    intro k
    rw [size_sample]
    exact Nat.lt_succ_self _
  have hlt : ∀ {r}, f.regs.binding r = .temp → r.index < Reg.count := by
    intro r hr
    exact lt_of_binding hr rfl
  cases op with
  | pushTyped t r =>
    simp only [run, FrameM.bind_run] at hrun
    split at hrun
    · next s e hx =>
      obtain ⟨htag, htemp⟩ := pushTyped_ok hx
      refine ⟨_, ⟨_, hsample t⟩, hroom t, ?_⟩
      obtain ⟨tag, ht⟩ := Option.isSome_iff_exists.1 htag
      have hdec := t.decode_sample
      rw [t.tag_sample ht] at hdec
      simp [Truthful, pushed?, ht, reg_sample (hlt htemp), htemp, hdec, Except.toOption]
    · cases hrun
  | pushDouble r =>
    simp only [run, FrameM.bind_run] at hrun
    split at hrun
    · next s e hx =>
      have htemp := pushDouble_ok hx
      refine ⟨_, ⟨_, hsample .double⟩, hroom .double, ?_⟩
      have hlt := lt_of_fbinding htemp rfl
      simp [Truthful, pushed?, freg_sample (Nat.lt_trans hlt (by decide))]
    · cases hrun
  | pushRegs rt rp types =>
    simp only [run, FrameM.bind_run] at hrun
    split at hrun
    · next s e hx =>
      obtain ⟨htag, hpay⟩ := pushRegs_ok hvalid hx
      have htr := (hsample types.knownType).setReg (r := rt) types.knownType.sample.tag.word
        (by simp [htag, Binding.slot?])
      refine ⟨_, ⟨_, htr⟩, hroom types.knownType, types.knownType.sample, ?_,
        fun _ => KnownType.tag_sample _⟩
      have hne : rt ≠ rp := hvalid
      simp [pushed?, hlt htag, hne, reg_sample (hlt hpay), hpay, KnownType.decode_sample,
        Except.toOption]
    · cases hrun
  | pushSynced types =>
    refine ⟨_, ⟨_, hsample types.knownType⟩, hroom _, types.knownType.sample, ?_, ?_⟩
    · simp [pushed?, slots_sample, sampleValue, Cell.decode_toCell, Except.toOption]
    · exact KnownType.describes_sample _
  | copyNumber s =>
    refine ⟨_, ⟨_, hsample .int32⟩, trivial, fun v hv => ?_⟩
    obtain ⟨u, hu, hfit⟩ := (hsample .int32).value hvalid.1
    have hdesc := (hsample .int32).describes_knownType (s := s) ⟨hvalid.1, by simp⟩
    cases hv.symm.trans hu
    rw [Value.same_isNumber hfit.same]
    rcases hvalid.2 with hk | hk | hk
    · rw [hs.sampleValue_unknown hvalid.1 hk]
      rfl
    · rw [hk] at hdesc
      exact Value.isNumber_of_tag (hdesc.1 _ rfl)
    · exact hdesc.2 hk
  | learnType s t =>
    refine ⟨_, ⟨_, hsample t⟩, trivial, fun v tag hv htag => ?_⟩
    obtain ⟨u, hu, hfit⟩ := (hsample t).value hvalid.1
    cases hv.symm.trans hu
    rw [hfit.eq (by simp [hvalid.2]), hs.sampleValue_unknown hvalid.1 hvalid.2]
    exact t.tag_sample htag
  | _ => exact ⟨_, ⟨_, hsample .int32⟩, by first | exact trivial | exact hroom _, trivial⟩

end FastPath
