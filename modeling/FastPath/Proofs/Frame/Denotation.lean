import FastPath.Proofs.Frame.Reset
import FastPath.Proofs.Frame.Types

/-!
# The values that a frame denotes

The tracker stands for an array of values. `Frame.value?` reads the value of a slot from a
machine, in the places where the entry of the slot says it is, and `Frame.Consistent` says
that this succeeds for every slot and that no flag promises more about memory than it has.

A number of known type `double` may be read in either representation, so an array is denoted
up to that: `Frame.Denotes`.

## Main results

* `Frame.Tracks.consistent`, `Frame.Tracks.denotes`, `Frame.Consistent.tracks`: a sound frame
  tracks a machine exactly if it is consistent with it.
-/

namespace FastPath

open Entry Machine

namespace KnownType

variable {t : KnownType} {u v : Value}

theorem Fits.symm (h : t.Fits u v) : t.Fits v u := by
  unfold Fits at h ⊢
  split
  · next ht =>
    rw [if_pos ht] at h
    exact ⟨Value.same_symm h.1, by rw [Value.same_isNumber h.1]; exact h.2⟩
  · next ht =>
    rw [if_neg ht] at h
    exact h.symm

/-- What is known of a value is known of the one that the machine has. -/
theorem Describes.of_fits (h : t.Describes v) (hfit : t.Fits u v) : t.Describes u := by
  by_cases ht : t = .double
  · subst ht
    exact ⟨fun tag htag =>
      (by cases htag), fun _ => by rw [Value.same_isNumber hfit.1]; exact hfit.2⟩
  · rw [hfit.eq ht]
    exact h

end KnownType

namespace Machine

/-- The memory of the slot holds the value. -/
def Stores (m : Machine) (t : KnownType) (s : Slot) (v : Value) : Prop :=
  ∃ c u, m.slots[s]? = some c ∧ c.decode = .ok u ∧ t.Fits u v

/-- If any cell may be met, reading one is decoding it. -/
theorem has_iff_stores {m : Machine} {t : KnownType} {s : Slot} {v : Value} :
    m.Has t s v ↔ m.Stores t s v := by
  simp only [Has, Stores, Cell.Reads, Cell.Discipline.valid, and_true]

end Machine

theorem Machine.Stores.trans {m : Machine} {t : KnownType} {s : Slot} {u v : Value}
    (h : m.Stores t s u) (hfit : t.Fits u v) : m.Stores t s v := by
  obtain ⟨c, w, hc, hw, hwu⟩ := h
  refine ⟨c, w, hc, hw, ?_⟩
  unfold KnownType.Fits at hwu hfit ⊢
  split at hfit
  · next ht =>
    rw [if_pos ht] at hwu ⊢
    exact ⟨Value.same_trans hwu.1 hfit.1, hfit.2⟩
  · next ht =>
    rw [if_neg ht] at hwu ⊢
    exact hwu.trans hfit

/-- The value at an index of an array that stands for a frame. -/
def lookup (vs : Array Value) (s : Slot) : Value := vs[s]?.getD .undefined

namespace Entry

/-- The value of an entry that owns it. -/
def value? (e : Entry) (m : Machine) (s : Slot) : Option Value :=
  match e.data with
  | .freg r => (m.freg r).map .double
  | _ => do
    let tag ← e.tagWord? m s
    let payload ← e.payloadWord? m s
    (Cell.decode ⟨tag, payload⟩).toOption

variable {e : Entry} {m : Machine} {s : Slot} {c : Cell} {u v : Value}

theorem value?_freg {r : FReg} (hr : e.data = .freg r) :
    e.value? m s = (m.freg r).map .double := by
  simp only [value?, hr]

/-- A value in no double register is read from its two words. -/
theorem value?_words (hr : ∀ r, e.data ≠ .freg r) : e.value? m s = some u ↔
    ∃ c : Cell, e.tagWord? m s = some c.tag ∧ e.payloadWord? m s = some c.payload ∧
      c.decode = .ok u := by
  have hv : e.value? m s = (do
      let tag ← e.tagWord? m s
      let payload ← e.payloadWord? m s
      (Cell.decode ⟨tag, payload⟩).toOption) := by
    unfold value?
    split
    · next r h => exact absurd h (hr r)
    · rfl
  rw [hv]
  constructor
  · intro h
    simp only [Option.bind_eq_bind, Option.bind_eq_some_iff] at h
    obtain ⟨tag, ht, payload, hp, hd⟩ := h
    refine ⟨⟨tag, payload⟩, ht, hp, ?_⟩
    cases hx : Cell.decode ⟨tag, payload⟩ with
    | error e => simp [hx, Except.toOption] at hd
    | ok w => simpa [hx, Except.toOption] using hd
  · rintro ⟨c, ht, hp, hd⟩
    simp [ht, hp, show Cell.decode ⟨c.tag, c.payload⟩ = .ok u from hd, Except.toOption]

/-- The value that is read fits the one that is held. -/
theorem Owns.value? (h : e.Owns m s v) (hf : ∀ r, e.data = .freg r → e.type = .double) :
    ∃ u, e.value? m s = some u ∧ e.type.Fits u v := by
  by_cases hfreg : ∃ r, e.data = .freg r
  · obtain ⟨r, hr⟩ := hfreg
    obtain ⟨d, hd, hv, -⟩ := (owns_freg hr).1 h
    refine ⟨.double d, by simp [value?_freg hr, hd], ?_⟩
    rw [hf r hr]
    exact ⟨hv, by rw [← Value.same_isNumber hv]; rfl⟩
  · have hne : ∀ r, e.data ≠ .freg r := fun r hr => hfreg ⟨r, hr⟩
    obtain ⟨c, u, hw, hu, hfit⟩ := (owns_words hne).1 h
    exact ⟨u, (value?_words hne).2 ⟨c, hw.tag, hw.payload, hu.1⟩, hfit⟩

end Entry

namespace Frame

variable {f : Frame} {m : Machine} {env : Slot → Value} {s : Slot} {vs : Array Value}

/-- The value of a slot. -/
def value? (f : Frame) (m : Machine) (s : Slot) : Option Value :=
  match (f.entry s).role with
  | .constant v => some v
  | .copyOf b => (f.entry b).value? m b
  | .own => (f.entry s).value? m s

/-- What the flags of a slot say about its memory is true. -/
def Honest (f : Frame) (m : Machine) (s : Slot) : Prop :=
  let e := f.entry s
  match e.role, e.data with
  | .own, .freg _ => e.dataSynced → ∀ v, f.value? m s = some v → m.Stores .double s v
  | .own, _ =>
    (e.tagSynced → m.slots[s]?.map (·.tag) = e.tagWord? m s) ∧
      (e.dataSynced → m.slots[s]?.map (·.payload) = e.payloadWord? m s)
  | _, _ => e.isSynced → ∀ v, f.value? m s = some v → m.Stores (f.knownType s) s v

/-- The machine has a value of the known type for every slot, and memory is as the flags
say. -/
structure Consistent (f : Frame) (m : Machine) : Prop where
  room : f.sp ≤ m.slots.size
  value : ∀ s, s < f.sp → ∃ v, f.value? m s = some v ∧ (f.knownType s).Describes v
  honest : ∀ s, s < f.sp → f.Honest m s

/-- The frame stands for the array. -/
structure Denotes (f : Frame) (m : Machine) (vs : Array Value) : Prop where
  size : vs.size = f.sp
  value : ∀ s, s < f.sp → ∃ u, f.value? m s = some u ∧ (f.knownType s).Fits u (lookup vs s)

/-- The array that the frame stands for. -/
def values (f : Frame) (m : Machine) : Array Value :=
  Array.ofFn fun s : Fin f.sp => (f.value? m s).getD .undefined

/-! ### Reading tracked values -/

/-- What is read is the value, up to the form of numbers. -/
theorem Tracks.value (h : f.Tracks none m env) (hs : s < f.sp) :
    ∃ u, f.value? m s = some u ∧ (f.knownType s).Fits u (env s) := by
  have hl := live_of_lt hs
  obtain ⟨hlb, henv, -, hown | ⟨hb, v, hv, hev⟩⟩ := h.backing hl
  · have hfreg := fun r => h.sound.freg_type (f.backing s) r hlb
    have hval : f.value? m s = (f.entry (f.backing s)).value? m (f.backing s) := by
      cases hrole : (f.entry s).role with
      | own | copyOf b => simp [Frame.value?, Frame.backing, copyOf?, hrole]
      | constant v =>
        have hb := backing_of_constant hrole
        rw [hb, hrole] at hown
        cases hown
    rw [hval, henv]
    exact ((holds_own hown).1 (h.holds _ hlb)).value? hfreg
  · refine ⟨v, by simp [Frame.value?, hv], ?_⟩
    rw [knownType, backingEntry, hb, h.sound.constant s v hl hv, hev]
    exact KnownType.fits_ofValue v

/-! ### Consistency -/

/-- A frame is consistent with a machine that it tracks. -/
theorem Tracks.consistent (h : f.Tracks none m env) : f.Consistent m := by
  refine ⟨h.room, fun s hs => ?_, fun s hs => ?_⟩
  · obtain ⟨u, hu, hfit⟩ := h.value hs
    exact ⟨u, hu, (h.describes_knownType ⟨hs, by simp⟩).of_fits hfit⟩
  · have hl := live_of_lt hs
    obtain ⟨u, hu, hfit⟩ := h.value hs
    have hh := h.holds s hl
    cases hrole : (f.entry s).role with
    | own =>
      by_cases hfreg : ∃ r, (f.entry s).data = .freg r
      · obtain ⟨r, hr⟩ := hfreg
        obtain ⟨d, hd, hv, hst⟩ := (owns_freg hr).1 ((holds_own hrole).1 hh)
        simp only [Honest, hrole, hr]
        intro hsync v hval
        have : v = .double d := by
          simpa [Frame.value?, hrole, value?_freg hr, hd, eq_comm] using hval
        subst this
        exact (has_iff_stores.1 (hst hsync)).trans ⟨Value.same_symm hv, rfl⟩
      · have hne : ∀ r, (f.entry s).data ≠ .freg r := fun r hr => hfreg ⟨r, hr⟩
        obtain ⟨c, u, hw, -⟩ := (owns_words hne).1 ((holds_own hrole).1 hh)
        have hboth : ((f.entry s).tagSynced →
            m.slots[s]?.map (·.tag) = (f.entry s).tagWord? m s) ∧
            ((f.entry s).dataSynced →
              m.slots[s]?.map (·.payload) = (f.entry s).payloadWord? m s) :=
          ⟨fun hs => (hw.tagSynced hs).trans hw.tag.symm,
            fun hs => (hw.dataSynced hs).trans hw.payload.symm⟩
        unfold Honest
        simp only [hrole]
        cases hdata : (f.entry s).data with
        | freg r => exact absurd hdata (hne r)
        | reg r | memory => exact hboth
    | copyOf b =>
      obtain ⟨-, hst⟩ := (holds_copy hrole).1 hh
      have hb := backing_of_copy hrole
      simp only [Honest, hrole]
      intro hsync v hval
      rw [hu] at hval
      cases hval
      have := has_iff_stores.1 (hst hsync)
      rw [knownType, backingEntry, hb] at hfit ⊢
      exact this.trans hfit.symm
    | constant w =>
      obtain ⟨henv, hst⟩ := (holds_constant hrole).1 hh
      have hb := backing_of_constant hrole
      simp only [Honest, hrole]
      intro hsync v hval
      rw [hu] at hval
      cases hval
      have := has_iff_stores.1 (hst hsync)
      rw [knownType, backingEntry, hb, henv] at hfit
      rw [knownType, backingEntry, hb]
      exact this.trans hfit.symm

theorem Tracks.denotes (h : f.Tracks none m env) (hsize : vs.size = f.sp)
    (henv : ∀ s, s < f.sp → lookup vs s = env s) : f.Denotes m vs := by
  refine ⟨hsize, fun s hs => ?_⟩
  rw [henv s hs]
  exact h.value hs

/-- A sound frame tracks every machine it is consistent with. -/
theorem Consistent.tracks (h : f.Consistent m) (hs : f.Sound none) :
    f.Tracks none m (lookup (f.values m)) := by
  have hval : ∀ s, s < f.sp → f.value? m s = some (lookup (f.values m) s) := by
    intro s hs
    obtain ⟨v, hv, -⟩ := h.value s hs
    simp [lookup, values, hs, hv]
  refine ⟨hs, h.room, fun s hl => ?_⟩
  have hv := hval s hl.1
  have hhonest := h.honest s hl.1
  obtain ⟨u, hu, hdesc⟩ := h.value s hl.1
  cases hrole : (f.entry s).role with
  | own =>
    have hb := backing_of_own hrole
    have hvs : (f.entry s).value? m s = some (lookup (f.values m) s) := by
      simpa [Frame.value?, hrole] using hv
    rw [knownType, backingEntry, hb] at hdesc
    rw [holds_own hrole]
    by_cases hfreg : ∃ r, (f.entry s).data = .freg r
    · obtain ⟨r, hr⟩ := hfreg
      simp only [Honest, hrole, hr] at hhonest
      rw [value?_freg hr] at hvs
      obtain ⟨d, hd, hdv⟩ := Option.map_eq_some_iff.1 hvs
      exact (owns_freg hr).2 ⟨d, hd, Value.same_of_eq hdv, fun hsync =>
        has_iff_stores.2 (hhonest hsync _ hv)⟩
    · have hne : ∀ r, (f.entry s).data ≠ .freg r := fun r hr => hfreg ⟨r, hr⟩
      have hflags : ((f.entry s).tagSynced →
          m.slots[s]?.map (·.tag) = (f.entry s).tagWord? m s) ∧
          ((f.entry s).dataSynced →
            m.slots[s]?.map (·.payload) = (f.entry s).payloadWord? m s) := by
        unfold Honest at hhonest
        simp only [hrole] at hhonest
        cases hdata : (f.entry s).data with
        | freg r => exact absurd hdata (hne r)
        | reg r | memory => simpa only [hdata] using hhonest
      obtain ⟨c, ht, hp, hu'⟩ := (value?_words hne).1 hvs
      refine (owns_words hne).2 ⟨c, _, ⟨ht, hp, ?_, ?_⟩, ⟨hu', trivial⟩, ?_⟩
      · exact fun hsync => (hflags.1 hsync).trans ht
      · exact fun hsync => (hflags.2 hsync).trans hp
      · rw [hv] at hu
        cases hu
        exact .refl hdesc.2
  | copyOf b =>
    obtain ⟨hlt, -, hown⟩ := hs.copy s b hl hrole
    have hb := backing_of_copy hrole
    have hvb := hval b (Nat.lt_trans hlt hl.1)
    rw [holds_copy hrole]
    refine ⟨?_, fun hsync => ?_⟩
    · simp only [Frame.value?, hrole, hown] at hv hvb
      exact Option.some.inj (hv.symm.trans hvb)
    · simp only [Honest, hrole, knownType, backingEntry, hb] at hhonest
      exact has_iff_stores.2 (hhonest hsync _ hv)
  | constant w =>
    have hb := backing_of_constant hrole
    have hw : lookup (f.values m) s = w := by
      simpa [Frame.value?, hrole, eq_comm] using hv
    rw [holds_constant hrole]
    refine ⟨hw, fun hsync => ?_⟩
    simp only [Honest, hrole, knownType, backingEntry, hb] at hhonest
    exact has_iff_stores.2 (hhonest hsync w (hw ▸ hv))

end Frame

end FastPath
