import FastPath.Proofs.Frame.Tracking

/-!
# Values of a type set

A set of types is met in three forms: its flags, the bits that a stub checks a result against, and
the one type that the compiler keeps. A value whose tag the flags have passes through all three.
-/

namespace FastPath

open KnownType

namespace TypeFlags

variable {v : Value} {t : KnownType}

theorem has_inter (f g : TypeFlags) (tag : Tag) :
    (f.inter g).has tag = (f.has tag && g.has tag) := by
  cases tag <;> rfl

/-- The bits name the types one by one. -/
theorem ofBits_bits (f : TypeFlags) : ofBits f.bits = f := by
  have hall : ∀ a b c d e g h : Bool, ofBits (bits ⟨a, b, c, d, e, g, h⟩) =
      ⟨a, b, c, d, e, g, h⟩ := by
    decide
  exact hall ..

theorem has_ofKnown_iff : (ofKnown t).has v.tag ↔ t.Describes v := by
  cases t <;> cases v <;>
    simp [ofKnown, has, all, none, number, Describes, tag?, Value.tag,
      Value.isNumber]

end TypeFlags

namespace TypeSet

variable {s : TypeSet} {v : Value}

/-- The one type that is kept for a set is a type of each of its values. -/
theorem describes_knownType (h : s.mightBe v.tag) : s.knownType.Describes v := by
  unfold knownType
  split
  · next hflags =>
    rw [mightBe, hflags] at h
    cases v <;> first | exact ⟨nofun, fun _ => rfl⟩ | cases h
  · split
    · exact describes_unknown v
    · cases hfind : all.find? fun t => TypeFlags.ofKnown t = s.flags with
      | none => exact describes_unknown v
      | some t =>
        have hflags : TypeFlags.ofKnown t = s.flags := by simpa using List.find?_some hfind
        exact TypeFlags.has_ofKnown_iff.1 (hflags ▸ h)

theorem contains_of_mightBe (h : s.mightBe v.tag) : s.contains v := by
  cases v with
  | double d =>
    have hd : s.flags.double = true := h
    simp [contains, hd]
  | _ => exact h

/-- A result that the oracle promised passes the check of its stub. -/
theorem contains_ofBits_bits (h : s.mightBe v.tag) : (of (.ofBits s.flags.bits)).contains v := by
  rw [TypeFlags.ofBits_bits]
  exact contains_of_mightBe h

end TypeSet

end FastPath
