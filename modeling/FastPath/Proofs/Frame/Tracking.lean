import FastPath.Frame.Store
import FastPath.Proofs.Frame.Registers
import FastPath.Proofs.Machine.Block
import FastPath.Proofs.Value

/-!
# A frame and the machine it describes

The tracker is right about a machine if every part of a value is where its entry says.
This has two halves. `Frame.Sound` is about the frame alone: entries and register file
agree on who holds what, copies refer to lower slots that own their value, and only some
combinations of type and location occur. `Frame.Tracks` adds a machine and an assignment of
values to slots: the machine holds the assigned value of every slot in the place, or the
two places, where the entry has it.

A slot known as a `double` may hold its number in either representation; everywhere else
the machine holds exactly the assigned value.

While a slot is being overwritten it has neither value nor registers. Such a slot is
called dead and is exempt from both conditions.
-/

namespace FastPath

open Machine

/-! ### Entries after an update -/

namespace Frame

@[grind =] theorem entry_update (f : Frame) (s s' : Slot) (g : Entry → Entry) :
    (f.update s g).entry s' =
      if s = s' ∧ s < f.entries.size then g (f.entry s') else f.entry s' := by
  simp only [entry, update, Array.getElem?_modify]
  by_cases h : s = s'
  · subst h
    by_cases hlt : s < f.entries.size
    · simp [hlt]
    · simp [hlt]
  · simp [h]

@[grind =] theorem size_update (f : Frame) (s : Slot) (g : Entry → Entry) :
    (f.update s g).entries.size = f.entries.size := by
  simp only [update, Array.size_modify]

/-- An update replaces one entry by what becomes of it. -/
theorem update_eq_setEntry (f : Frame) (s : Slot) (g : Entry → Entry) :
    f.update s g = f.setEntry s (g (f.entry s)) := by
  unfold setEntry update
  congr 1
  apply Array.ext
  · simp only [Array.size_modify]
  · intro i h₁ h₂
    simp only [Array.getElem_modify]
    split
    · next h =>
      subst h
      have hlt : s < f.entries.size := by simpa only [Array.size_modify] using h₁
      simp [entry, hlt]
    · rfl

theorem setEntry_setEntry (f : Frame) (s : Slot) (a b : Entry) :
    (f.setEntry s a).setEntry s b = f.setEntry s b := by
  unfold setEntry update
  congr 1
  apply Array.ext
  · simp only [Array.size_modify]
  · intro i h₁ h₂
    simp only [Array.getElem_modify]
    split <;> rfl

@[grind =] theorem entry_setEntry (f : Frame) (s s' : Slot) (e : Entry) :
    (f.setEntry s e).entry s' = if s = s' ∧ s < f.entries.size then e else f.entry s' :=
  entry_update f s s' _

@[grind =] theorem entry_push (f : Frame) (e : Entry) (s : Slot) (h : f.sp ≤ f.entries.size) :
    (f.push e).entry s = if s = f.sp then e else f.entry s := by
  simp only [entry, push]
  by_cases hlt : f.sp < f.entries.size
  · simp only [hlt, if_true, Array.getElem?_setIfInBounds]
    by_cases hs : s = f.sp
    · simp [hs]
    · simp [hs, Ne.symm hs]
  · have hsize : f.sp = f.entries.size := by omega
    simp only [hsize, Nat.lt_irrefl, if_false, Array.getElem?_push]
    by_cases hs : s = f.entries.size <;> simp [hs]

@[grind =] theorem entry_mapLive (f : Frame) (g : Entry → Entry) (s : Slot)
    (h : f.sp ≤ f.entries.size) :
    (f.mapLive g).entry s = if s < f.sp then g (f.entry s) else f.entry s := by
  simp only [entry, mapLive, Array.getElem?_mapIdx]
  by_cases hs : s < f.sp
  · have hlt : s < f.entries.size := Nat.lt_of_lt_of_le hs h
    simp [hs, hlt]
  · simp [hs]

section Views

variable (f : Frame) (g : RegisterFile → RegisterFile) (h : Entry → Entry) (e : Entry) (s s' : Slot)

@[simp, grind =] theorem entry_mapRegs : (f.mapRegs g).entry s = f.entry s := rfl

@[simp, grind =] theorem regs_mapRegs : (f.mapRegs g).regs = g f.regs := rfl

@[simp, grind =] theorem sp_mapRegs : (f.mapRegs g).sp = f.sp := rfl

@[simp, grind =] theorem entries_mapRegs : (f.mapRegs g).entries = f.entries := rfl

@[simp, grind =] theorem entry_bumpGeneration : f.bumpGeneration.entry s = f.entry s := rfl

@[simp, grind =] theorem regs_bumpGeneration : f.bumpGeneration.regs = f.regs := rfl

@[simp, grind =] theorem sp_bumpGeneration : f.bumpGeneration.sp = f.sp := rfl

@[simp, grind =] theorem entries_bumpGeneration : f.bumpGeneration.entries = f.entries := rfl

@[simp, grind =] theorem regs_update : (f.update s h).regs = f.regs := rfl

@[simp, grind =] theorem sp_update : (f.update s h).sp = f.sp := rfl

@[simp, grind =] theorem regs_setEntry : (f.setEntry s e).regs = f.regs := rfl

@[simp, grind =] theorem sp_setEntry : (f.setEntry s e).sp = f.sp := rfl

@[simp, grind =] theorem size_setEntry : (f.setEntry s e).entries.size = f.entries.size :=
  size_update f s _

@[simp, grind =] theorem regs_mapLive : (f.mapLive h).regs = f.regs := rfl

@[simp, grind =] theorem sp_mapLive : (f.mapLive h).sp = f.sp := rfl

@[simp, grind =] theorem regs_push : (f.push e).regs = f.regs := rfl

@[simp, grind =] theorem sp_push : (f.push e).sp = f.sp + 1 := rfl

@[simp, grind =] theorem maxSp_push : (f.push e).maxSp = max f.maxSp (f.sp + 1) := rfl

end Views

end Frame

/-! ### The frame alone -/

namespace Frame

/-- The slot has a value. -/
def Live (f : Frame) (dead : Option Slot) (s : Slot) : Prop := s < f.sp ∧ dead ≠ some s

section

variable {f : Frame} {s b : Slot} {v : Value}

theorem live_of_lt (hs : s < f.sp) : f.Live none s := ⟨hs, by simp⟩

theorem backing_of_own (h : (f.entry s).role = .own) : f.backing s = s := by
  simp [backing, Entry.copyOf?, h]

theorem backing_of_constant (h : (f.entry s).role = .constant v) : f.backing s = s := by
  simp [backing, Entry.copyOf?, h]

theorem backing_of_copy (h : (f.entry s).role = .copyOf b) : f.backing s = b := by
  simp [backing, Entry.copyOf?, h]

end

/-- Entries and register file agree. -/
structure Sound (f : Frame) (dead : Option Slot) : Prop where
  sp_le : f.sp ≤ f.entries.size
  /-- A copy refers to a lower slot that owns its value. -/
  copy : ∀ s b, f.Live dead s → (f.entry s).role = .copyOf b →
    b < s ∧ dead ≠ some b ∧ (f.entry b).role = .own
  /-- Only a slot that owns its value has registers. -/
  bare : ∀ s, f.Live dead s → (f.entry s).role ≠ .own →
    (f.entry s).data = .memory ∧ (f.entry s).tag = none
  constant : ∀ s v, f.Live dead s → (f.entry s).role = .constant v →
    (f.entry s).type = .ofValue v
  /-- Only a number known as a double is in a double register. -/
  freg_type : ∀ s r, f.Live dead s → (f.entry s).data = .freg r → (f.entry s).type = .double
  /-- Only a tag that the type does not imply is in a register. -/
  tag_type : ∀ s r, f.Live dead s → (f.entry s).tag = some r → (f.entry s).type = .unknown
  data_iff : ∀ s r, f.regs.binding r = .data s ↔ f.Live dead s ∧ (f.entry s).data = .reg r
  tag_iff : ∀ s r, f.regs.binding r = .tag s ↔ f.Live dead s ∧ (f.entry s).tag = some r
  fdata_iff : ∀ s r, f.regs.fbinding r = .data s ↔
    f.Live dead s ∧ (f.entry s).data = .freg r
  ftag : ∀ s r, f.regs.fbinding r ≠ .tag s

end Frame

/-! ### The machine -/

/-- The machine may hold `u` for a value `v` of the known type. -/
def KnownType.Fits (t : KnownType) (u v : Value) : Prop :=
  if t = .double then u.same v ∧ v.isNumber else u = v

namespace KnownType

variable {t : KnownType} {u v w : Value}

/-- The type is one of the value. -/
def Describes (t : KnownType) (v : Value) : Prop :=
  (∀ tag, t.tag? = some tag → v.tag = tag) ∧ (t = .double → v.isNumber)

theorem Fits.refl (h : t = .double → v.isNumber) : t.Fits v v := by
  unfold Fits
  split
  · next ht => exact ⟨v.same_refl, h ht⟩
  · rfl

theorem fits_ofValue (v : Value) : (ofValue v).Fits v v := by
  apply Fits.refl
  cases v <;> simp [ofValue, Value.isNumber]

theorem describes_ofValue (v : Value) : (ofValue v).Describes v := by
  cases v <;> simp [Describes, ofValue, tag?, Value.tag, Value.isNumber]

theorem describes_unknown (v : Value) : unknown.Describes v := by simp [Describes, tag?]

theorem Fits.same (h : t.Fits u v) : u.same v := by
  unfold Fits at h
  split at h
  · exact h.1
  · exact Value.same_of_eq h

theorem Fits.eq (h : t.Fits u v) (ht : t ≠ .double) : u = v := by
  rwa [Fits, if_neg ht] at h

theorem Fits.isNumber (h : double.Fits u v) : v.isNumber := h.2

end KnownType

variable {D : Cell.Discipline}

namespace Machine

/-- The memory of the slot holds the value. -/
def Has [Cell.Discipline] (m : Machine) (t : KnownType) (s : Slot) (v : Value) : Prop :=
  ∃ c u, m.slots[s]? = some c ∧ c.Reads u ∧ t.Fits u v

end Machine

namespace Entry

/-- Where the tag word of an owned value is read. -/
def tagWord? (e : Entry) (m : Machine) (s : Slot) : Option UInt64 :=
  match e.type.tag?, e.tag with
  | some t, _ => some t.word
  | none, some r => m.reg r
  | none, none => m.slots[s]?.map (·.tag)

/-- Where the payload word of an owned value is read. -/
def payloadWord? (e : Entry) (m : Machine) (s : Slot) : Option UInt64 :=
  match e.data with
  | .reg r => m.reg r
  | .memory => m.slots[s]?.map (·.payload)
  | .freg _ => none

/-- The two words of an owned value that is in no double register, and what memory has of
them. -/
structure Words (e : Entry) (m : Machine) (s : Slot) (c : Cell) : Prop where
  tag : e.tagWord? m s = some c.tag
  payload : e.payloadWord? m s = some c.payload
  tagSynced : e.tagSynced → m.slots[s]?.map (·.tag) = some c.tag
  dataSynced : e.dataSynced → m.slots[s]?.map (·.payload) = some c.payload

/-- The machine holds the value where the entry says. -/
def Owns [Cell.Discipline] (e : Entry) (m : Machine) (s : Slot) (v : Value) : Prop :=
  match e.data with
  | .freg r =>
    ∃ d, m.freg r = some d ∧ (Value.double d).same v ∧ (e.dataSynced → m.Has .double s v)
  | _ => ∃ c u, e.Words m s c ∧ c.Reads u ∧ e.type.Fits u v

variable {e : Entry} {m : Machine} {s : Slot} {v : Value} {c : Cell} {r : Reg}

theorem owns_freg {r : FReg} (hr : e.data = .freg r) : e.Owns m s v ↔
      ∃ d, m.freg r = some d ∧ (Value.double d).same v ∧
        (e.dataSynced → m.Has .double s v) := by
  simp only [Owns, hr]

theorem owns_words (hr : ∀ r, e.data ≠ .freg r) :
    e.Owns m s v ↔ ∃ c u, e.Words m s c ∧ c.Reads u ∧ e.type.Fits u v := by
  unfold Owns
  split
  · next r hdata => exact absurd hdata (hr r)
  · rfl

theorem Words.payload_memory (h : e.Words m s c) (hd : e.data = .memory) :
    m.operand? (.payload s) = some c.payload := by
  have hp := h.payload
  simp only [payloadWord?, hd] at hp
  exact hp

theorem Words.payload_reg (h : e.Words m s c) (hd : e.data = .reg r) :
    m.reg r = some c.payload := by
  have hp := h.payload
  simp only [payloadWord?, hd] at hp
  exact hp

theorem Words.tag_memory (h : e.Words m s c) (htype : e.type.tag? = none) (hr : e.tag = none) :
    m.operand? (.tag s) = some c.tag := by
  have ht := h.tag
  simp only [tagWord?, htype, hr] at ht
  exact ht

theorem Words.tag_reg (h : e.Words m s c) (htype : e.type.tag? = none) (hr : e.tag = some r) :
    m.reg r = some c.tag := by
  have ht := h.tag
  simp only [tagWord?, htype, hr] at ht
  exact ht

theorem Words.tag_known (h : e.Words m s c) {t : Tag} (htype : e.type.tag? = some t) :
    t.word = c.tag := by
  have ht := h.tag
  simp only [tagWord?, htype] at ht
  exact Option.some.inj ht

/-- The tag is read from somewhere else than the register that is written. -/
theorem tagWord?_setReg (h : e.tag ≠ some r) (m : Machine) (s : Slot) (w : UInt64) :
    e.tagWord? (m.setReg r w) s = e.tagWord? m s := by
  unfold tagWord?
  cases e.type.tag? with
  | some t => rfl
  | none =>
    cases htag : e.tag with
    | none => rfl
    | some r' =>
      have hne : r ≠ r' := by
        rintro rfl
        exact h htag
      simp [hne]

/-- The payload is read from somewhere else than the register that is written. -/
theorem payloadWord?_setReg (h : e.data ≠ .reg r) (m : Machine) (s : Slot) (w : UInt64) :
    e.payloadWord? (m.setReg r w) s = e.payloadWord? m s := by
  unfold payloadWord?
  cases hdata : e.data with
  | memory | freg x => rfl
  | reg r' =>
    have hne : r ≠ r' := by
      rintro rfl
      exact h hdata
    simp [hne]

/-- Loading the payload into a register. -/
theorem Words.load_payload (h : e.Words m s c) (hlt : r.index < Reg.count) (hr : e.tag ≠ some r) :
    ({ e with data := .reg r } : Entry).Words (m.setReg r c.payload) s c where
  __ := h
  tag := (tagWord?_setReg (e := { e with data := .reg r }) hr m s _).trans h.tag
  payload := by simp [payloadWord?, hlt]

/-- Loading the tag into a register. -/
theorem Words.load_tag (h : e.Words m s c) (hlt : r.index < Reg.count) (htype : e.type.tag? = none)
    (hr : e.data ≠ .reg r) :
    ({ e with tag := some r } : Entry).Words (m.setReg r c.tag) s c where
  __ := h
  tag := by simp [tagWord?, htype, hlt]
  payload := (payloadWord?_setReg (e := { e with tag := some r }) hr m s _).trans h.payload

/-- What memory has does not matter to where the words are read. -/
theorem Words.of_synced (h : e.synced.Words m s c) : e.Words m s c :=
  ⟨h.tag, h.payload, fun _ => h.tagSynced rfl, fun _ => h.dataSynced rfl⟩

theorem Words.synced (h : e.Words m s c) (hc : m.slots[s]? = some c) : e.synced.Words m s c :=
  ⟨h.tag, h.payload, fun _ => by rw [hc]; rfl, fun _ => by rw [hc]; rfl⟩

end Entry

namespace Frame

/-- The machine has the value of a slot where its entry says. -/
def Holds [Cell.Discipline] (f : Frame) (m : Machine) (env : Slot → Value) (s : Slot) : Prop :=
  match (f.entry s).role with
  | .own => (f.entry s).Owns m s (env s)
  | .copyOf b => env s = env b ∧ ((f.entry s).isSynced → m.Has (f.entry b).type s (env s))
  | .constant v => env s = v ∧ ((f.entry s).isSynced → m.Has (f.entry s).type s v)

section Holds

variable {f : Frame} {m : Machine} {env : Slot → Value} {s b : Slot} {v : Value}

theorem holds_own (h : (f.entry s).role = .own) :
    f.Holds m env s ↔ (f.entry s).Owns m s (env s) := by
  simp only [Holds, h]

theorem holds_copy (h : (f.entry s).role = .copyOf b) : f.Holds m env s ↔
    env s = env b ∧ ((f.entry s).isSynced → m.Has (f.entry b).type s (env s)) := by
  simp only [Holds, h]

theorem holds_constant (h : (f.entry s).role = .constant v) : f.Holds m env s ↔
    env s = v ∧ ((f.entry s).isSynced → m.Has (f.entry s).type s v) := by
  simp only [Holds, h]

end Holds

/-- The machine holds the assigned value of every slot. -/
structure Tracks [Cell.Discipline] (f : Frame) (dead : Option Slot) (m : Machine)
    (env : Slot → Value) : Prop where
  sound : f.Sound dead
  room : f.sp ≤ m.slots.size
  holds : ∀ s, f.Live dead s → f.Holds m env s

end Frame

/-! ### What the invariant depends on -/

variable {e : Entry} {m : Machine} {v : Value}

/-- A value is held in the same way by a machine that agrees on the places of its entry. -/
theorem Entry.Owns.congr {m' : Machine} {s : Slot} (h : e.Owns m s v)
    (hslot : m'.slots[s]? = m.slots[s]?)
    (hreg : ∀ r, e.data = .reg r ∨ e.tag = some r → m'.reg r = m.reg r)
    (hfreg : ∀ r, e.data = .freg r → m'.freg r = m.freg r) : e.Owns m' s v := by
  have htag : e.tagWord? m' s = e.tagWord? m s := by
    grind [Entry.tagWord?]
  have hpay : e.payloadWord? m' s = e.payloadWord? m s := by
    grind [Entry.payloadWord?]
  unfold Entry.Owns at h ⊢
  cases hdata : e.data with
  | freg r =>
    simp only [hdata] at h ⊢
    simpa only [hfreg r hdata, Has, hslot] using h
  | _ =>
    simp only [hdata] at h ⊢
    obtain ⟨c, u, hw, hu⟩ := h
    refine ⟨c, u, ⟨htag ▸ hw.tag, hpay ▸ hw.payload, ?_, ?_⟩, hu⟩
    · exact fun hs => hslot ▸ hw.tagSynced hs
    · exact fun hs => hslot ▸ hw.dataSynced hs

/-- What an entry notes about types and literals does not matter to where the value is. -/
theorem Entry.Owns.of_notes {s : Slot} (h : e.Owns m s v) (types : TypeSet)
    (init : Option InitTarget) : ({ e with types, init } : Entry).Owns m s v := by
  by_cases hdata : ∃ r, e.data = .freg r
  · obtain ⟨r, hr⟩ := hdata
    exact (owns_freg (e := { e with types, init }) hr).2 ((owns_freg hr).1 h)
  · have hne : ∀ r, e.data ≠ .freg r := fun r hr => hdata ⟨r, hr⟩
    obtain ⟨c, u, ⟨ht, hp, hts, hds⟩, hu⟩ := (owns_words hne).1 h
    exact (owns_words (e := { e with types, init }) hne).2 ⟨c, u, ⟨ht, hp, hts, hds⟩, hu⟩

/-- The register file `g` comes from `old` when the slot `s` gives up its registers and takes
those of the entry `e`. -/
structure RegisterFile.Assigns (old : RegisterFile) (s : Slot) (e : Entry) (g : RegisterFile) :
    Prop where
  fregType : ∀ r, e.data = .freg r → e.type = .double
  tagType : ∀ r, e.tag = some r → e.type = .unknown
  data : ∀ s' r, g.binding r = .data s' ↔
    if s' = s then e.data = .reg r else old.binding r = .data s'
  tag : ∀ s' r, g.binding r = .tag s' ↔
    if s' = s then e.tag = some r else old.binding r = .tag s'
  fdata : ∀ s' r, g.fbinding r = .data s' ↔
    if s' = s then e.data = .freg r else old.fbinding r = .data s'
  ftag : ∀ s' r, g.fbinding r ≠ .tag s'

namespace Frame

variable {f' : Frame} {m' : Machine} {s : Slot} {r : Reg} {g : Entry → Entry}

/-- The value of a slot is held in the same way by a frame and a machine that agree on its
entry and on the places of the entry. -/
theorem Holds.congr {f : Frame} {m : Machine} {env env' : Slot → Value} (h : f.Holds m env s)
    (hentry : f'.entry s = f.entry s) (henv : env' s = env s)
    (hcopy : ∀ b, (f.entry s).role = .copyOf b →
      env' b = env b ∧ (f'.entry b).type = (f.entry b).type) (hslot : m'.slots[s]? = m.slots[s]?)
    (hreg : ∀ r, (f.entry s).data = .reg r ∨ (f.entry s).tag = some r → m'.reg r = m.reg r)
    (hfreg : ∀ r, (f.entry s).data = .freg r → m'.freg r = m.freg r) : f'.Holds m' env' s := by
  unfold Holds at h ⊢
  rw [hentry]
  cases hrole : (f.entry s).role with
  | own =>
    simp only [hrole] at h ⊢
    rw [henv]
    exact h.congr hslot hreg hfreg
  | copyOf b =>
    obtain ⟨hb, htype⟩ := hcopy b hrole
    simp only [hrole] at h ⊢
    simpa only [Has, hslot, henv, hb, htype] using h
  | constant v =>
    simp only [hrole] at h ⊢
    simpa only [Has, hslot, henv] using h

variable {f : Frame} {dead : Option Slot} {m : Machine} {env : Slot → Value}

/-- Soundness does not depend on what memory has. -/
theorem Sound.congr (h : f.Sound dead) (hsp : f'.sp = f.sp)
    (hsize : f'.entries.size = f.entries.size) (hregs : f'.regs = f.regs)
    (hrole : ∀ s, (f'.entry s).role = (f.entry s).role)
    (htype : ∀ s, (f'.entry s).type = (f.entry s).type)
    (hdata : ∀ s, (f'.entry s).data = (f.entry s).data)
    (htag : ∀ s, (f'.entry s).tag = (f.entry s).tag) : f'.Sound dead := by
  have hlive : ∀ s, f'.Live dead s ↔ f.Live dead s := by simp [Live, hsp]
  obtain ⟨h₁, h₂, h₃, h₄, h₅, h₆, h₇, h₈, h₉, h₁₀⟩ := h
  constructor <;> simp only [hsp, hsize, hregs, hrole, htype, hdata, htag, hlive] <;> assumption

/-- A slot with a register owns its value. -/
theorem Sound.own_of_data (h : f.Sound dead) (hr : f.regs.binding r = .data s) :
    f.Live dead s ∧ (f.entry s).data = .reg r ∧ (f.entry s).role = .own := by
  obtain ⟨hl, hdata⟩ := (h.data_iff s r).1 hr
  refine ⟨hl, hdata, ?_⟩
  by_cases hrole : (f.entry s).role = .own
  · exact hrole
  · exact absurd (hdata.symm.trans (h.bare s hl hrole).1) (by simp)

theorem Sound.own_of_tag (h : f.Sound dead) (hr : f.regs.binding r = .tag s) :
    f.Live dead s ∧ (f.entry s).tag = some r ∧ (f.entry s).role = .own := by
  obtain ⟨hl, htag⟩ := (h.tag_iff s r).1 hr
  refine ⟨hl, htag, ?_⟩
  by_cases hrole : (f.entry s).role = .own
  · exact hrole
  · exact absurd (htag.symm.trans (h.bare s hl hrole).2) (by simp)

theorem Sound.own_of_fdata (h : f.Sound dead) {r : FReg} (hr : f.regs.fbinding r = .data s) :
    f.Live dead s ∧ (f.entry s).data = .freg r ∧ (f.entry s).role = .own := by
  obtain ⟨hl, hdata⟩ := (h.fdata_iff s r).1 hr
  refine ⟨hl, hdata, ?_⟩
  by_cases hrole : (f.entry s).role = .own
  · exact hrole
  · exact absurd (hdata.symm.trans (h.bare s hl hrole).1) (by simp)

/-- Bookkeeping in the register file that touches no register of a slot. -/
theorem Tracks.of_regs (h : f.Tracks dead m env) {g : RegisterFile}
    (hreg : ∀ r, g.binding r = f.regs.binding r ∨
      (g.binding r).slot? = none ∧ (f.regs.binding r).slot? = none)
    (hfreg : ∀ r, g.fbinding r = f.regs.fbinding r ∨
      (g.fbinding r).slot? = none ∧ (f.regs.fbinding r).slot? = none) :
    ({ f with regs := g } : Frame).Tracks dead m env := by
  have hdata : ∀ s r, g.binding r = .data s ↔ f.regs.binding r = .data s := by
    grind [Binding.slot?]
  have htag : ∀ s r, g.binding r = .tag s ↔ f.regs.binding r = .tag s := by
    grind [Binding.slot?]
  have hfdata : ∀ s r, g.fbinding r = .data s ↔ f.regs.fbinding r = .data s := by
    grind [Binding.slot?]
  have hftag : ∀ s r, g.fbinding r ≠ .tag s := by
    have := h.sound.ftag
    grind [Binding.slot?]
  obtain ⟨hs, hroom, hholds⟩ := h
  exact
    { sound :=
        { hs with
          data_iff := fun s r => (hdata s r).trans (hs.data_iff s r)
          tag_iff := fun s r => (htag s r).trans (hs.tag_iff s r)
          fdata_iff := fun s r => (hfdata s r).trans (hs.fdata_iff s r)
          ftag := hftag }
      room := hroom
      holds := hholds }

/-- What an entry notes about types and literals does not matter to the register file. -/
theorem Sound.of_notes (h : f.Sound dead) (s₀ : Slot)
    (hg : ∀ e, ∃ types init, g e = { e with types, init }) : (f.update s₀ g).Sound dead := by
  have hent : ∀ s, ∃ types init, (f.update s₀ g).entry s = { f.entry s with types, init } := by
    intro s
    rw [entry_update]
    split
    · exact hg _
    · exact ⟨_, _, rfl⟩
  refine h.congr rfl (size_update f s₀ g) rfl ?_ ?_ ?_ ?_ <;>
  · intro s
    obtain ⟨types, init, he⟩ := hent s
    rw [he]

/-- Noting something about the types of a slot or about the literal in it. -/
theorem Tracks.of_notes (h : f.Tracks dead m env) (s₀ : Slot)
    (hg : ∀ e, ∃ types init, g e = { e with types, init }) : (f.update s₀ g).Tracks dead m env := by
  have hent : ∀ s, ∃ types init, (f.update s₀ g).entry s = { f.entry s with types, init } := by
    intro s
    rw [entry_update]
    split
    · exact hg _
    · exact ⟨_, _, rfl⟩
  have hrole : ∀ s, ((f.update s₀ g).entry s).role = (f.entry s).role := by
    intro s
    obtain ⟨types, init, he⟩ := hent s
    rw [he]
  have htype : ∀ s, ((f.update s₀ g).entry s).type = (f.entry s).type := by
    intro s
    obtain ⟨types, init, he⟩ := hent s
    rw [he]
  refine ⟨h.sound.of_notes s₀ hg, h.room, ?_⟩
  · intro s hs
    obtain ⟨types, init, he⟩ := hent s
    have hh := h.holds s hs
    cases hr : (f.entry s).role with
    | own =>
      rw [holds_own ((hrole s).trans hr), he]
      exact ((holds_own hr).1 hh).of_notes types init
    | copyOf b =>
      rw [holds_copy ((hrole s).trans hr), htype, he]
      exact (holds_copy hr).1 hh
    | constant v =>
      rw [holds_constant ((hrole s).trans hr), he]
      exact (holds_constant hr).1 hh

/-- Writing a register that belongs to no slot. -/
theorem Tracks.setReg (h : f.Tracks dead m env) (w : UInt64)
    (hr : (f.regs.binding r).slot? = none) :
    f.Tracks dead (m.setReg r w) env := by
  refine ⟨h.sound, h.room, fun s hs => ?_⟩
  refine (h.holds s hs).congr rfl rfl (fun _ _ => ⟨rfl, rfl⟩) rfl ?_ fun _ _ => rfl
  intro r' hr'
  have hne : r ≠ r' := by
    rintro rfl
    rcases hr' with hd | ht
    · rw [(h.sound.data_iff s r).2 ⟨hs, hd⟩] at hr
      cases hr
    · rw [(h.sound.tag_iff s r).2 ⟨hs, ht⟩] at hr
      cases hr
  simp only [reg_setReg, hne, false_and, if_false]

/-- Writing a double register that belongs to no slot. -/
theorem Tracks.setFReg (h : f.Tracks dead m env) {r : FReg} (d : Double)
    (hr : (f.regs.fbinding r).slot? = none) : f.Tracks dead (m.setFReg r d) env := by
  refine ⟨h.sound, h.room, fun s hs => ?_⟩
  refine (h.holds s hs).congr rfl rfl (fun _ _ => ⟨rfl, rfl⟩) rfl (fun _ _ => rfl) ?_
  intro r' hr'
  have hne : r ≠ r' := by
    rintro rfl
    rw [(h.sound.fdata_iff s r).2 ⟨hs, hr'⟩] at hr
    cases hr
  simp only [freg_setFReg, hne, false_and, if_false]

/-- One slot that owns its value may come to hold it elsewhere, if its own registers and
memory are the only places that change. -/
theorem Tracks.relocate (h : f.Tracks dead m env) {s₀ : Slot} (hlive : f.Live dead s₀)
    (hown : (f.entry s₀).role = .own) (hsp : f'.sp = f.sp)
    (hsize : f'.entries.size = f.entries.size) (hrole : (f'.entry s₀).role = .own)
    (htype : (f'.entry s₀).type = (f.entry s₀).type) (hother : ∀ s, s ≠ s₀ → f'.entry s = f.entry s)
    (hregs : f.regs.Assigns s₀ (f'.entry s₀) f'.regs) (hslots : m'.slots.size = m.slots.size)
    (hmem : ∀ s, s ≠ s₀ → m'.slots[s]? = m.slots[s]?)
    (hreg : ∀ s r, s ≠ s₀ → f.regs.binding r = .data s ∨ f.regs.binding r = .tag s →
      m'.reg r = m.reg r)
    (hfreg : ∀ s r, s ≠ s₀ → f.regs.fbinding r = .data s → m'.freg r = m.freg r)
    (howns : (f'.entry s₀).Owns m' s₀ (env s₀)) : f'.Tracks dead m' env := by
  have hlive' : ∀ s, f'.Live dead s ↔ f.Live dead s := by simp [Live, hsp]
  obtain ⟨hs, hroom, hholds⟩ := h
  obtain ⟨hfregType, htagType, hdata, htag, hfdata, hftag⟩ := hregs
  have hroles : ∀ s, (f'.entry s).role = (f.entry s).role := by grind
  have htypes : ∀ s, (f'.entry s).type = (f.entry s).type := by grind
  refine ⟨⟨?_, ?_, ?_, ?_, ?_, ?_, ?_, ?_, ?_, hftag⟩, ?_, ?_⟩
  · rw [hsp, hsize]
    exact hs.sp_le
  · intro s b hl hr
    rw [hroles] at hr ⊢
    exact hs.copy s b ((hlive' s).1 hl) hr
  · intro s hl hr
    have := hs.bare s ((hlive' s).1 hl)
    grind
  · intro s v hl hr
    rw [hroles] at hr
    rw [htypes]
    exact hs.constant s v ((hlive' s).1 hl) hr
  · intro s r hl hr
    have := hs.freg_type s r ((hlive' s).1 hl)
    grind
  · intro s r hl hr
    have := hs.tag_type s r ((hlive' s).1 hl)
    grind
  · intro s r
    have := hs.data_iff s r
    grind
  · intro s r
    have := hs.tag_iff s r
    grind
  · intro s r
    have := hs.fdata_iff s r
    grind
  · rw [hsp, hslots]
    exact hroom
  · intro s hl
    have hl' := (hlive' s).1 hl
    by_cases hs0 : s = s₀
    · subst hs0
      simp only [Holds, hrole]
      exact howns
    · refine (hholds s hl').congr (hother s hs0) rfl (fun b _ => ⟨rfl, htypes b⟩) (hmem s hs0) ?_ ?_
      · rintro r (hr | hr)
        · exact hreg s r hs0 (.inl ((hs.data_iff s r).2 ⟨hl', hr⟩))
        · exact hreg s r hs0 (.inr ((hs.tag_iff s r).2 ⟨hl', hr⟩))
      · intro r hr
        exact hfreg s r hs0 ((hs.fdata_iff s r).2 ⟨hl', hr⟩)

end Frame

end FastPath
