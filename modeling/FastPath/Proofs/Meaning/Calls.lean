import FastPath.Proofs.Meaning.Emits

/-!
# Stub calls in emitted code

A stub works on the memory of the frame and on the heap. If it succeeds, the machine goes on
with the word that the stub returns and with no other register; if it fails, the run is over
and hands back what the memory of the frame holds.
-/

namespace FastPath

open MachineM

/-- The machine after a stub has returned a word. -/
def Machine.returned (m : Machine) (s : StubState) (w : UInt64) : Machine :=
  ({ m with heap := s.heap, slots := s.slots } : Machine).clobber .empty w

namespace Machine

variable (m : Machine) (s : StubState) (w : UInt64)

@[simp] theorem slots_returned : (m.returned s w).slots = s.slots := rfl

@[simp] theorem heap_returned : (m.returned s w).heap = s.heap := rfl

theorem reg_result_returned : (m.returned s w).reg .result = some w := by
  have hmask : RegMask.empty.hasReg .result = false := by decide
  simp only [returned, clobber, reg, hmask, Bool.false_eq_true, if_false]
  rw [Vector.getElem?_setIfInBounds]
  simp [Reg.result, Reg.count]

end Machine

/-- The values of the slots below `sp` can be read. -/
def Readable (slots : Array Cell) (sp : Nat) : Prop :=
  sp ≤ slots.size ∧ ∃ vs, (slots.toList.take sp).mapM Cell.decode = .ok vs

/-- The run has ended because an operation failed. -/
def Outcome.FailsWith (o : Outcome) (e : OpError) : Prop :=
  ∃ pc sp vs, o = .bailout ⟨.stubFailure, pc, sp, vs, some e⟩

/-- A monitored result passes the check. -/
def Placement.Lets (E : Placement) (stub : Stub) (sp : Nat) (slots : Array Cell) : Prop :=
  ∀ promised, E.monitored = some promised → stub.defs = 0 ∨
    ∃ c v, slots[sp - stub.uses]? = some c ∧ c.decode = .ok v ∧
      (TypeSet.of (.ofBits promised)).contains v

namespace MachineM

variable {p : Position} {m m' : Machine} {stub : Stub} {sp : Nat} {arg : Int64}

theorem count_plain (hp : p.counting = false) (g : Stats → Stats) : count g p m = .ok () m := by
  obtain ⟨code, function, counting, offset⟩ := p
  obtain rfl := hp
  rfl

variable {site : RejoinSite}

theorem site_ok {k : Nat} (hk : p.code.siteIndex? p.offset = some k)
    (hsite : p.code.sites[k]? = some site) : MachineM.site p m = .ok site m := by
  unfold MachineM.site
  rw [bind_ok (show (read : MachineM Position) p m = .ok p m from rfl)]
  simp only [hk, Option.bind_some, hsite]
  rfl

theorem expect_ok {α : Type} {x : Except OpError α} {a : α} (h : x = .ok a) :
    expect x p m = .ok a m := by
  subst h
  rfl

theorem decodeFrame_ok (h : Readable m.slots sp) : ∃ vs, decodeFrame sp p m = .ok vs m := by
  obtain ⟨hle, vs, hvs⟩ := h
  refine ⟨vs, ?_⟩
  unfold decodeFrame
  rw [get_bind]
  simp only [Nat.not_lt.2 hle, if_false]
  exact expect_ok hvs

/-- A value of a promised type passes the barrier. -/
theorem typeBarrier_next (hsite : MachineM.site p m = .ok site m)
    (h : ∀ promised, site.monitored = some promised → stub.defs = 0 ∨
      ∃ c v, m.slots[site.sp - stub.uses]? = some c ∧ c.decode = .ok v ∧
        (TypeSet.of (.ofBits promised)).contains v) : typeBarrier stub p m = .ok .next m := by
  unfold typeBarrier
  rw [bind_ok hsite]
  cases hm : site.monitored with
  | none => rfl
  | some promised =>
    dsimp only
    by_cases hskip : stub.defs = 0 ∨ site.sp + stub.defs ≠ site.spAfter + stub.uses
    · rw [if_pos hskip]
      rfl
    · rw [if_neg hskip]
      obtain ⟨hdefs, hsp⟩ := not_or.1 hskip
      obtain ⟨c, v, hc, hv, hcontains⟩ := (h promised hm).resolve_left hdefs
      have hone : stub.defs = 1 := by
        revert hdefs
        cases stub <;> simp [Stub.defs]
      have hslot : site.spAfter - stub.defs = site.sp - stub.uses := by omega
      rw [hslot, bind_ok (getSlot_ok hc), bind_ok (expect_ok hv), if_pos hcontains]
      rfl

end MachineM

namespace Position

variable {p : Position} {m : Machine} {stub : Stub} {sp : Nat} {arg : Int64} {o : Offset}
  {site : RejoinSite} {k : Nat}

variable {s : StubState} (hp : p.Plain) (hi : p.code.insts[o]? = some (.callStub stub sp arg))
  (hk : p.code.siteIndex? o = some k) (hsite : p.code.sites[k]? = some site) (hsp : site.sp = sp)
include hp hi hk hsite hsp

/-- A stub that succeeds. -/
theorem Plain.steps_call {w : UInt64}
    (hrun : StubCall.invoke ⟨p.function, sp, arg⟩ stub ⟨m.heap, m.slots⟩ = .ok w s)
    (hlets : ∀ promised, site.monitored = some promised → stub.defs = 0 ∨
      ∃ c v, s.slots[sp - stub.uses]? = some c ∧ c.decode = .ok v ∧
        (TypeSet.of (.ofBits promised)).contains v) :
    Steps p 1 (.running o m) (.running (o + 1) (m.returned s w)) := by
  refine hp.steps hi (r := .ok .next (m.returned s w)) ?_
  change MachineM.callStub stub sp arg { p with offset := o } m = _
  unfold MachineM.callStub
  rw [MachineM.bind_ok (MachineM.count_plain (p := { p with offset := o }) hp.counting _),
    MachineM.bind_ok ((MachineM.runStub_run ..).trans (by rw [hrun]))]
  dsimp only
  rw [MachineM.bind_ok (show (modify (·.clobber .empty w) : MachineM Unit) { p with offset := o }
    { m with heap := s.heap, slots := s.slots } = .ok () (m.returned s w) from rfl)]
  exact MachineM.typeBarrier_next (MachineM.site_ok hk hsite)
    (by simpa only [hsp, Machine.slots_returned] using hlets)

/-- A stub that fails. -/
theorem Plain.steps_failure {e : OpError}
    (hrun : StubCall.invoke ⟨p.function, sp, arg⟩ stub ⟨m.heap, m.slots⟩ = .error e s)
    (hread : Readable s.slots sp) :
    ∃ out : Outcome, out.FailsWith e ∧
      Steps p 1 (.running o m) (.stopped out { m with heap := s.heap, slots := s.slots }) := by
  obtain ⟨vs, hvs⟩ := MachineM.decodeFrame_ok (p := { p with offset := o })
    (m := { m with heap := s.heap, slots := s.slots })
    (hsp ▸ hread : Readable s.slots site.sp)
  refine ⟨_, ⟨site.pc, site.sp, vs, rfl⟩, hp.steps hi
    (r := .ok (.stop (.bailout ⟨.stubFailure, site.pc, site.sp, vs, some e⟩)) _) ?_⟩
  change MachineM.callStub stub sp arg { p with offset := o } m = _
  unfold MachineM.callStub
  rw [MachineM.bind_ok (MachineM.count_plain (p := { p with offset := o }) hp.counting _),
    MachineM.bind_ok ((MachineM.runStub_run ..).trans (by rw [hrun]))]
  change MachineM.stubFailure e { p with offset := o } _ = _
  unfold MachineM.stubFailure
  rw [MachineM.bind_ok (MachineM.site_ok (p := { p with offset := o }) hk hsite),
    MachineM.bind_ok (MachineM.count_plain (p := { p with offset := o }) hp.counting _),
      MachineM.bind_ok hvs]
  rfl

end Position

namespace AsmM

variable {E : Placement} {k : Cursor} {S : Scene}

/-- The draft grows by a call. -/
theorem grows_call (a : Assembly) (s : Stream) (stub : Stub) (arg : Int64) :
    a.Grows { a with
      buffer := a.buffer.emit s (.callStub stub a.frame.sp arg)
      slow := a.slow.record (a.buffer.label s) a.frame.sp } := by
  have hg := grows_emit a s (i := .callStub stub a.frame.sp arg) nofun
  refine ⟨hg.inst, hg.links, fun k hk => ?_, Nat.le_refl _, fun hr =>
    ⟨(hg.regular hr).unlinked, ?_, ?_⟩⟩
  · exact ⟨k, Array.mem_push_of_mem _ hk, .refl k⟩
  · intro k hk
    rcases Array.mem_push.1 hk with hk | rfl
    · exact (hg.regular hr).call_lt k hk
    · cases s <;> simp [CodeBuffer.label, CodeBuffer.emit, CodeBuffer.stream]
  · simp only [SlowPath.record, Array.toList_push, List.map_append, List.map_cons, List.map_nil]
    refine List.nodup_append.2 ⟨hr.call_nodup, by simp, ?_⟩
    rintro l hl l' hl' rfl
    obtain ⟨k, hk, rfl⟩ := List.mem_map.1 hl
    have hlt := hr.call_lt k (Array.mem_toList_iff.1 hk)
    rw [List.mem_singleton.1 hl'] at hlt
    exact absurd hlt (Nat.lt_irrefl _)

variable {T : Outcome → Machine → Prop}

/-- A stub call takes the end of a stream to what the stub makes of it. -/
theorem emits_call {s : Stream} {stub : Stub} {arg : Int64} {F : Machine → Prop}
    {Q : Label → Cursor → Scene → Prop} (hF : ∀ m, S.ends s m →
      match StubCall.invoke ⟨E.position.function, k.frame.sp, arg⟩ stub ⟨m.heap, m.slots⟩ with
      | .ok w st => E.Lets stub k.frame.sp st.slots ∧ F (m.returned st w)
      | .error e st => Readable st.slots k.frame.sp ∧ ∀ out : Outcome, out.FailsWith e →
          T out { m with heap := st.heap, slots := st.slots }) (hT : ∀ o m, S.stop o m → T o m)
    (h : Q (k.ends s) (k.next s) { S.withEnd s F with stop := T }) :
    Emits E (emitCall s fun sp => .callStub stub sp arg) k S Q := by
  rintro a rfl hM r b hx
  cases hx
  have hlabel : a.cursor.ends s = a.buffer.label s := by cases s <;> rfl
  rw [hlabel] at h
  refine ⟨grows_call a s stub arg, hM, _,
    (cursor_emit a s (.callStub stub a.frame.sp arg)).symm ▸ h, fun hc _ => ?_⟩
  have hlt := extent_lt_emit a s (.callStub stub a.frame.sp arg)
  refine leads_of_stream (Nat.le_of_lt hlt) (fun s' => label_emit_ne a.buffer _) rfl ?_ ?_ ?_ ?_ hT
    fun m hm => ?_
  · intro s' hs' m hm
    have := ends_withEnd (S := S) (F := F) hs'
    cases s' <;> rwa [← this] at hm
  · cases s <;> exact fun _ => id
  · cases s <;> exact fun _ _ => id
  · cases s <;> exact fun _ _ => id
  · have hinst := hc.inst (a.buffer.label s) (.callStub stub a.frame.sp arg)
      (by cases s <;> simp [CodeBuffer.inst?, CodeBuffer.emit, CodeBuffer.label, CodeBuffer.stream])
      rfl
    obtain ⟨n, site, hn, hsite, hdone⟩ := hc.site _ (Array.mem_push_self ..)
    have hmon : site.monitored = E.monitored := hdone.monitored.trans hM
    have hrun := hF m hm
    split at hrun
    · next w st hinv =>
      obtain ⟨hlets, hm'⟩ := hrun
      refine Position.reaches_of_step
        (x := .here ((a.buffer.emit s (.callStub stub a.frame.sp arg)).label s))
        (m := m.returned st w) hlt ?_ ?_
      · rw [label_emit, if_pos rfl, Spot.stage, Code.place_next]
        exact E.plain.steps_call hinst hn hsite hdone.sp hinv (hmon ▸ hlets)
      · cases s
        · exact .inl ⟨rfl, hm'⟩
        · exact .inr ⟨rfl, hm'⟩
    · next e st hinv =>
      obtain ⟨hread, hT'⟩ := hrun
      obtain ⟨out, hout, hsteps⟩ :=
        E.plain.steps_failure hinst hn hsite hdone.sp hinv hread
      exact Position.reaches_of_step (x := .stop out) hlt hsteps (hT' out hout)

/-- Returning a value. -/
theorem emits_ret {src : Source} {Q : Unit → Cursor → Scene → Prop}
    (hT : ∀ m, S.fast m → ∃ c v, m.source? src = some c ∧ c.decode = .ok v ∧ T (.ret v) m)
    (hT' : ∀ o m, S.stop o m → T o m)
    (h : Q () (k.next .fast) { S with fast := fun _ => False, stop := T }) :
    Emits E (emit .fast (.ret src)) k S Q := by
  refine emits_of_quiet (y := fun a => { a with buffer := a.buffer.emit .fast (.ret src) })
    (fun _ => rfl) (fun a _ => grows_emit a .fast nofun) (fun _ => rfl)
    (fun a ha => ha ▸ cursor_emit a .fast _) ?_ h
  rintro a rfl hc -
  have hlt := extent_lt_emit a .fast (.ret src)
  refine leads_of_stream (s := .fast) (Nat.le_of_lt hlt) (fun s' => label_emit_ne a.buffer _) rfl ?_
    (fun _ => id) (fun _ _ => id) (fun _ _ => id) hT' fun m hm => ?_
  · rintro (_ | _) hs m hm
    · exact absurd rfl hs
    · exact hm
  · obtain ⟨c, v, hc', hv, hT''⟩ := hT m hm
    have hinst := hc.inst (a.buffer.label .fast) (.ret src)
      (by simp [CodeBuffer.inst?, CodeBuffer.emit, CodeBuffer.label, CodeBuffer.stream]) rfl
    refine Position.reaches_of_step (x := .stop (.ret v)) hlt ?_ hT''
    refine E.plain.steps hinst (r := .ok (.stop (.ret v)) m) ?_
    simp only [execute]
    rw [bind_ok (source_ok hc'), bind_ok (expect_ok hv)]
    rfl

end AsmM

end FastPath
