import FastPath.Proofs.Frame.Reset

/-!
# A machine for every frame

Whether entries and register file agree does not depend on what the machine holds. So a
property of frames that is proved from what code does to a machine needs a machine to start
from: every sound frame describes one, in which all values are small and every slot of unknown
type has one of a type that can be chosen.
-/

namespace FastPath

open KnownType Cell

/-- A value of the type. Its payload is zero, and where nothing is known it is a number. -/
def KnownType.sample : KnownType → Value
  | .unknown | .int32 => .int32 0
  | .double => .double .zero
  | .boolean => .boolean false
  | .string => .string ⟨0⟩
  | .null => .null
  | .undefined => .undefined
  | .object => .object ⟨0⟩

namespace KnownType

variable (t : KnownType)

theorem payload_sample : t.sample.payload = 0 := by cases t <;> rfl

theorem tag_sample {tag : Tag} (h : t.tag? = some tag) : t.sample.tag = tag := by
  cases t <;> cases h <;> rfl

theorem reads_sample {D : Discipline} : Reads ⟨t.sample.tag.word, 0⟩ t.sample := by
  have h := reads_toCell t.sample
  rwa [Value.toCell, payload_sample] at h

theorem decode_sample : decode ⟨t.sample.tag.word, 0⟩ = .ok t.sample :=
  (reads_sample (D := anyCell) t).1

theorem describes_sample : t.Describes t.sample :=
  ⟨fun _ h => tag_sample t h, fun h => by subst h; rfl⟩

/-- A value of the type; where nothing is known, one of the type `k`. -/
def sampleAs (k t : KnownType) : Value := if t = .unknown then k.sample else t.sample

variable (k : KnownType)

theorem payload_sampleAs : (k.sampleAs t).payload = 0 := by
  unfold sampleAs
  split <;> exact payload_sample _

theorem tag_sampleAs {tag : Tag} (h : t.tag? = some tag) : (k.sampleAs t).tag = tag := by
  rw [sampleAs, if_neg (by rintro rfl; cases h)]
  exact tag_sample t h

theorem fits_sampleAs : t.Fits (k.sampleAs t) (k.sampleAs t) :=
  .refl fun h => by subst h; rfl

end KnownType

namespace Frame

variable {f : Frame} {s : Slot}

/-- The value of a slot in the sample machine. -/
def sampleValue (f : Frame) (k : KnownType) (s : Slot) : Value :=
  if s < f.sp then
    match (f.entry s).role with
    | .constant v => v
    | .copyOf b => k.sampleAs (f.entry b).type
    | .own => k.sampleAs (f.entry s).type
  else k.sample

/-- A machine with the given number of slots in which every register is zero, apart from
those that hold tags. Slots of which nothing is known hold values of type `k`. -/
def sample (f : Frame) (k : KnownType) (size : Nat) : Machine where
  regs := Vector.ofFn fun i => some <|
    match f.regs.binding ⟨i⟩ with
    | .tag _ => k.sample.tag.word
    | _ => 0
  fregs := Vector.replicate _ (some .zero)
  slots := Array.ofFn fun s : Fin size => (f.sampleValue k s).toCell
  heap := default
  caches := #[]
  stats := .zero

variable {k : KnownType} {size : Nat}

theorem reg_sample {r : Reg} (hr : r.index < Reg.count) : (f.sample k size).reg r =
    some (match f.regs.binding r with
      | .tag _ => k.sample.tag.word
      | _ => 0) := by
  simp [Machine.reg, sample, hr]

theorem freg_sample {r : FReg} (hr : r.index < FReg.count) :
    (f.sample k size).freg r = some .zero := by
  simp [Machine.freg, sample, hr]

theorem slots_sample (hs : s < size) :
    (f.sample k size).slots[s]? = some (f.sampleValue k s).toCell := by
  simp [sample, hs]

theorem size_sample : (f.sample k size).slots.size = size := by simp [sample]

theorem has_sample {D : Discipline} (hs : s < size) {t : KnownType}
    (ht : t.Fits (f.sampleValue k s) (f.sampleValue k s)) :
    (f.sample k size).Has t s (f.sampleValue k s) :=
  ⟨_, _, slots_sample hs, reads_toCell _, ht⟩

/-- A sound frame describes its sample machine. -/
theorem Sound.tracks_sample {D : Discipline} (h : f.Sound none) (hsize : f.sp ≤ size) :
    f.Tracks none (f.sample k size) (f.sampleValue k) := by
  refine ⟨h, size_sample.symm ▸ hsize, fun s hl => ?_⟩
  have hs : s < size := Nat.lt_of_lt_of_le hl.1 hsize
  have hc := slots_sample (f := f) (k := k) hs
  cases hrole : (f.entry s).role with
  | own =>
    have hv : f.sampleValue k s = k.sampleAs (f.entry s).type := by
      simp [sampleValue, hl.1, hrole]
    rw [hv] at hc
    rw [holds_own hrole, hv]
    by_cases hfreg : ∃ r, (f.entry s).data = .freg r
    · obtain ⟨r, hr⟩ := hfreg
      have htype := h.freg_type s r hl hr
      have hb := (h.fdata_iff s r).2 ⟨hl, hr⟩
      have hlt := RegisterFile.lt_of_fbinding hb rfl
      rw [htype] at hc ⊢
      exact (Entry.owns_freg hr).2 ⟨.zero, freg_sample (Nat.lt_trans hlt (by decide)),
        Value.same_refl _, fun _ => ⟨_, _, hc, reads_toCell _, fits_sampleAs _ _⟩⟩
    · have hne : ∀ r, (f.entry s).data ≠ .freg r := fun r hr => hfreg ⟨r, hr⟩
      refine (Entry.owns_words hne).2
        ⟨(k.sampleAs (f.entry s).type).toCell, _, ⟨?_, ?_, ?_, ?_⟩, reads_toCell _,
          fits_sampleAs _ _⟩
      · unfold Entry.tagWord?
        split
        · next t _ ht =>
          simp [Value.toCell, tag_sampleAs _ _ ht]
        · next r ht hr =>
          have htype := h.tag_type s r hl hr
          have hb := (h.tag_iff s r).2 ⟨hl, hr⟩
          have hlt := RegisterFile.lt_of_binding hb rfl
          rw [reg_sample hlt, hb, htype]
          rfl
        · rw [hc]
          rfl
      · unfold Entry.payloadWord?
        split
        · next r hr =>
          have hb := (h.data_iff s r).2 ⟨hl, hr⟩
          have hlt := RegisterFile.lt_of_binding hb rfl
          rw [reg_sample hlt, hb]
          simp [Value.toCell, payload_sampleAs]
        · rw [hc]
          rfl
        · next r hr => exact absurd hr (hne r)
      · intro _
        rw [hc]
        rfl
      · intro _
        rw [hc]
        rfl
  | copyOf b =>
    obtain ⟨hlt, -, hown⟩ := h.copy s b hl hrole
    have hv : f.sampleValue k s = k.sampleAs (f.entry b).type := by
      simp [sampleValue, hl.1, hrole]
    have hvb : f.sampleValue k b = k.sampleAs (f.entry b).type := by
      simp [sampleValue, Nat.lt_trans hlt hl.1, hown]
    rw [holds_copy hrole]
    exact ⟨hv.trans hvb.symm, fun _ => has_sample hs (hv ▸ fits_sampleAs _ _)⟩
  | constant v =>
    have hv : f.sampleValue k s = v := by simp [sampleValue, hl.1, hrole]
    rw [holds_constant hrole, h.constant s v hl hrole]
    refine ⟨hv, fun _ => ?_⟩
    rw [← hv]
    exact has_sample hs (fits_ofValue _)

/-- A slot of which nothing is known has a value of the chosen type. -/
theorem Sound.sampleValue_unknown (h : f.Sound none) (hs : s < f.sp)
    (hk : f.knownType s = .unknown) : f.sampleValue k s = k.sample := by
  have ht := h.tracks_sample (D := anyCell) (k := k) (Nat.le_refl f.sp)
  have hl := live_of_lt hs
  obtain ⟨hlb, henv, hown⟩ := ht.own_backing hl (ht.constant?_of_unknown hl hk)
  have htype : (f.entry (f.backing s)).type = .unknown := hk
  rw [henv]
  simp [sampleValue, hlb.1, hown, sampleAs, htype]

/-! ### Pushing -/

theorem Sound.pushConstant (hs : f.Sound none) (v : Value) : (f.pushConstant v).Sound none :=
  ((hs.tracks_sample (D := anyCell) (k := .unknown) (Nat.le_succ f.sp)).pushConstant v
    (by simp [size_sample])).sound

/-- A value in memory may be pushed. -/
theorem Sound.pushSynced (hs : f.Sound none) (types : TypeSet) :
    (f.pushSynced types).Sound none := by
  -- any value of the right type will do, so the sample is one whose free slots have that type
  have htr := hs.tracks_sample (D := anyCell) (k := types.knownType) (Nat.le_succ f.sp)
  have hv : f.sampleValue types.knownType f.sp = types.knownType.sample := by simp [sampleValue]
  refine (htr.pushSynced (v := types.knownType.sample) ?_ (describes_sample _)).sound
  rw [← hv]
  refine has_sample (Nat.lt_succ_self _) (.refl fun hd => ?_)
  rw [hv, hd]
  rfl

end Frame

end FastPath
