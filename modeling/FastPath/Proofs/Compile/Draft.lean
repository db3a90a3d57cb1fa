import FastPath.Compile.Basic
import FastPath.Proofs.Code.Link

/-!
# Unfinished code

While a function is compiled its code exists as a draft: two streams of instructions, the
links recorded so far, and the calls made so far. A draft only grows. Finished code
contains every draft on the way to it: the emitted instructions stand in their places,
every link is honoured, and every call has its site.
-/

namespace FastPath

open CodeBuffer

variable {α β ε : Type} {l : List α}

/-- A traversal that succeeds at each element succeeds. -/
theorem exists_mapM_ok {g : α → Except ε β} (h : ∀ a ∈ l, ∃ b, g a = .ok b) :
    ∃ bs, l.mapM g = .ok bs := by
  induction l with
  | nil => exact ⟨[], rfl⟩
  | cons a l ih =>
    obtain ⟨b, hb⟩ := h a List.mem_cons_self
    obtain ⟨bs, hbs⟩ := ih fun a ha => h a (List.mem_cons_of_mem _ ha)
    refine ⟨b :: bs, ?_⟩
    rw [List.mapM_cons, hb, hbs]
    rfl

/-- A traversal that succeeds has a result for each element. -/
theorem getElem?_of_mapM {f : α → Except ε β} {l' : List β} (h : l.mapM f = .ok l') (i : Nat) :
    (l[i]? = none ∧ l'[i]? = none) ∨ ∃ a b, l[i]? = some a ∧ l'[i]? = some b ∧ f a = .ok b := by
  induction l generalizing l' i with
  | nil =>
    cases h
    exact .inl ⟨rfl, rfl⟩
  | cons a l ih =>
    rw [List.mapM_cons] at h
    cases ha : f a with
    | error e =>
      rw [ha] at h
      cases h
    | ok b =>
      cases hl : l.mapM f with
      | error e =>
        rw [ha, hl] at h
        cases h
      | ok bs =>
        rw [ha, hl] at h
        cases h
        cases i with
        | zero => exact .inr ⟨a, b, rfl, rfl, ha⟩
        | succ i => exact ih hl i

/-! ### Growing -/

/-- The next label of a stream. -/
def Label.next (l : Label) : Label := ⟨l.stream, l.offset + 1⟩

/-- The call has not changed, apart from being completed. -/
structure PendingCall.Survives (k k' : PendingCall) : Prop where
  call : k'.call = k.call
  pc : k'.pc = k.pc
  resumePc : k'.resumePc = k.resumePc
  sp : k'.sp = k.sp
  monitored : k'.monitored = k.monitored
  spAfter : ∀ n, k.spAfter = some n → k'.spAfter = some n

namespace PendingCall.Survives

theorem refl (k : PendingCall) : k.Survives k := ⟨rfl, rfl, rfl, rfl, rfl, fun _ => id⟩

theorem trans {k₁ k₂ k₃ : PendingCall} (h : k₁.Survives k₂) (h' : k₂.Survives k₃) :
    k₁.Survives k₃ :=
  ⟨h'.call.trans h.call, h'.pc.trans h.pc, h'.resumePc.trans h.resumePc, h'.sp.trans h.sp,
    h'.monitored.trans h.monitored, fun n hn => h'.spAfter n (h.spAfter n hn)⟩

end PendingCall.Survives

namespace Assembly

/-- No branch has a target yet, and every call has a place of its own. -/
structure Regular (a : Assembly) : Prop where
  unlinked : a.buffer.Unlinked
  call_lt : ∀ k ∈ a.slow.calls, k.call.offset < (a.buffer.stream k.call.stream).size
  call_nodup : (a.slow.calls.toList.map (·.call)).Nodup

/-- The second draft has everything that the first one has. -/
structure Grows (a b : Assembly) : Prop where
  inst : ∀ l i, a.buffer.inst? l = some i → b.buffer.inst? l = some i
  links : ∀ k ∈ a.buffer.links, k ∈ b.buffer.links
  calls : ∀ k ∈ a.slow.calls, ∃ k' ∈ b.slow.calls, k.Survives k'
  maxSp : a.frame.maxSp ≤ b.frame.maxSp
  regular : a.Regular → b.Regular

namespace Grows

theorem refl (a : Assembly) : a.Grows a :=
  ⟨fun _ _ => id, fun _ => id, fun k hk => ⟨k, hk, .refl k⟩, Nat.le_refl _, id⟩

variable {a b : Assembly}

theorem trans {c : Assembly} (h : a.Grows b) (h' : b.Grows c) : a.Grows c where
  inst l i hi := h'.inst l i (h.inst l i hi)
  links k hk := h'.links k (h.links k hk)
  calls k hk := by
    obtain ⟨k₁, hk₁, hs₁⟩ := h.calls k hk
    obtain ⟨k₂, hk₂, hs₂⟩ := h'.calls k₁ hk₁
    exact ⟨k₂, hk₂, hs₁.trans hs₂⟩
  maxSp := Nat.le_trans h.maxSp h'.maxSp
  regular hr := h'.regular (h.regular hr)

/-- Instructions have been appended, none of which is a branch with a target. -/
theorem of_append (new : Stream → List Inst)
    (hstream : ∀ s, (b.buffer.stream s).toList = (a.buffer.stream s).toList ++ new s)
    (hnew : ∀ s g t, .branch g t ∈ new s → t = Inst.unlinked)
    (hlinks : ∀ k ∈ a.buffer.links, k ∈ b.buffer.links) (hcalls : b.slow.calls = a.slow.calls)
    (hmax : a.frame.maxSp ≤ b.frame.maxSp) : a.Grows b where
  inst l i hi := by
    unfold inst? at hi ⊢
    rw [← Array.getElem?_toList] at hi ⊢
    rw [hstream, List.getElem?_append_left (List.getElem?_eq_some_iff.1 hi).1, hi]
  links := hlinks
  calls k hk := ⟨k, hcalls ▸ hk, .refl k⟩
  maxSp := hmax
  regular hr := by
    refine ⟨?_, ?_, ?_⟩
    · intro l g t hi
      unfold inst? at hi
      rw [← Array.getElem?_toList, hstream, List.getElem?_append] at hi
      split at hi
      · rw [Array.getElem?_toList] at hi
        exact hr.unlinked l g t hi
      · exact hnew _ g t (List.mem_of_getElem? hi)
    · intro k hk
      have hlt := hr.call_lt k (hcalls ▸ hk)
      rw [← Array.length_toList] at hlt ⊢
      rw [hstream, List.length_append]
      exact Nat.lt_add_right _ hlt
    · rw [hcalls]
      exact hr.call_nodup

/-- Nothing has been emitted. -/
theorem of_same (hfast : b.buffer.fast = a.buffer.fast) (hslow : b.buffer.slow = a.buffer.slow)
    (hlinks : ∀ k ∈ a.buffer.links, k ∈ b.buffer.links) (hcalls : b.slow.calls = a.slow.calls)
    (hmax : a.frame.maxSp ≤ b.frame.maxSp) : a.Grows b := by
  refine of_append (fun _ => []) (fun s => ?_) (by simp) hlinks hcalls hmax
  cases s <;> simp [stream, hfast, hslow]

end Grows

end Assembly

/-! ### Finished code -/

namespace Code

/-- The place of a label. -/
def place (c : Code) (l : Label) : Offset := l.position c.fastLength

/-- The place that a link leads to. -/
def destination? (c : Code) : LinkTarget → Option Offset
  | .label l => some (c.place l)
  | .pc n => c.offset? n

theorem place_next (c : Code) (l : Label) : c.place l.next = c.place l + 1 := by
  obtain ⟨s, o⟩ := l
  cases s <;> rfl

end Code

/-- The site that a call has become. -/
structure RejoinSite.Completes (s : RejoinSite) (k : PendingCall) : Prop where
  pc : s.pc = k.pc
  resumePc : s.resumePc = k.resumePc
  sp : s.sp = k.sp
  monitored : s.monitored = k.monitored
  spAfter : ∀ n, k.spAfter = some n → s.spAfter = n

/-- The finished code has everything that a draft has. -/
structure Code.Contains (c : Code) (a : Assembly) : Prop where
  inst : ∀ l i, a.buffer.inst? l = some i → i.target? = none → c.insts[c.place l]? = some i
  branch : ∀ l g t, a.buffer.inst? l = some (.branch g t) →
    ∃ t', c.insts[c.place l]? = some (.branch g t')
  link : ∀ k ∈ a.buffer.links, ∃ g t, c.insts[c.place k.jump]? = some (.branch g t) ∧
    c.destination? k.target = some t
  site : ∀ k ∈ a.slow.calls, ∃ i s, c.siteIndex? (c.place k.call) = some i ∧
    c.sites[i]? = some s ∧ s.Completes k

/-- Code that has a draft has what the draft grew from. -/
theorem Code.Contains.of_grows {c : Code} {a b : Assembly} (h : c.Contains b) (hg : a.Grows b) :
    c.Contains a where
  inst l i hi := h.inst l i (hg.inst l i hi)
  branch l g t hi := h.branch l g t (hg.inst l _ hi)
  link k hk := h.link k (hg.links k hk)
  site k hk := by
    obtain ⟨k', hk', hs⟩ := hg.calls k hk
    obtain ⟨i, s, hi, hsite, hc⟩ := h.site k' hk'
    exact ⟨i, s, hs.call ▸ hi, hsite, hc.pc.trans hs.pc, hc.resumePc.trans hs.resumePc,
      hc.sp.trans hs.sp, hc.monitored.trans hs.monitored,
      fun n hn => hc.spAfter n (hs.spAfter n hn)⟩

theorem Label.absolute_ok {l : Label} {n : Nat} {o : Offset} (h : l.absolute n = .ok o) :
    l.position n = o := by
  unfold absolute at h
  split at h
  · exact Except.ok.inj h
  · cases h

/-- Two places are only the same for one label, as long as the labels are in the code. -/
theorem Label.position_inj {l l' : Label} {n : Nat} (h : l.position n = l'.position n)
    (hl : l.stream = .fast → l.offset < n) (hl' : l'.stream = .fast → l'.offset < n) : l = l' := by
  obtain ⟨s, o⟩ := l
  obtain ⟨s', o'⟩ := l'
  cases s <;> cases s' <;> grind [Label.position]

namespace Compilation

variable {s : Compilation} {c : Context} {code : Code}

/-- What finishing gives. -/
theorem finish_ok (h : s.finish c = .ok code) :
    s.asm.buffer.finish s.labels = .ok (code.insts, s.asm.buffer.fast.size) ∧
      s.asm.slow.calls.mapM (siteOf s.asm.buffer.fast.size) = .ok code.sites ∧
      code = { name := c.function.displayName
               insts := code.insts
               fastLength := s.asm.buffer.fast.size
               pcOffsets := s.labels.map (·.map (·.position s.asm.buffer.fast.size))
               sites := code.sites
               caches := s.caches.map (·.map (·.position s.asm.buffer.fast.size))
               argCount := c.function.paramCount
               localCount := c.function.localCount
               frameSize := max s.asm.frame.maxSp
                 (c.function.paramCount + c.function.localCount + c.flow.maxDepth) + 1
               cacheLimit := c.config.cacheLimit } := by
  unfold finish at h
  cases hi : s.asm.buffer.finish s.labels with
  | error e =>
    simp only [hi] at h
    cases h
  | ok linked =>
    obtain ⟨insts, n⟩ := linked
    obtain rfl := (CodeBuffer.finish_ok hi).2.1
    cases hs : s.asm.slow.calls.mapM (siteOf s.asm.buffer.fast.size) with
    | error e =>
      simp only [hi, bind, Except.bind, hs] at h
      cases h
    | ok sites =>
      simp only [hi, bind, Except.bind, hs] at h
      cases h
      exact ⟨rfl, rfl, rfl⟩

variable {k : PendingCall}

theorem siteOf_ok {n : Nat} {site : RejoinSite} (h : siteOf n k = .ok site) :
    site.call = k.call.position n ∧ site.Completes k := by
  unfold siteOf at h
  cases hsp : k.spAfter with
  | none =>
    rw [hsp] at h
    cases h
  | some m =>
    rw [hsp] at h
    cases h
    exact ⟨rfl, rfl, rfl, rfl, rfl, fun n hn => by rw [hsp] at hn; exact Option.some.inj hn⟩

theorem mapM_sites {n : Nat} (h : s.asm.slow.calls.mapM (siteOf n) = .ok code.sites) :
    s.asm.slow.calls.toList.mapM (siteOf n) = .ok code.sites.toList := by
  rw [Array.mapM_eq_mapM_toList] at h
  cases hm : s.asm.slow.calls.toList.mapM (siteOf n) with
  | error e =>
    rw [hm] at h
    cases h
  | ok l =>
    rw [hm] at h
    exact congrArg (fun sites : Array RejoinSite => Except.ok sites.toList) (Except.ok.inj h)

/-- Every call has its site. -/
theorem finish_site (hr : s.asm.Regular)
    (h : s.asm.slow.calls.mapM (siteOf s.asm.buffer.fast.size) = .ok code.sites)
    (hk : k ∈ s.asm.slow.calls) :
    ∃ i site, code.siteIndex? (k.call.position s.asm.buffer.fast.size) = some i ∧
      code.sites[i]? = some site ∧ site.Completes k := by
  have hall := mapM_sites h
  have hfast : ∀ k ∈ s.asm.slow.calls, k.call.stream = .fast →
      k.call.offset < s.asm.buffer.fast.size := by
    intro k hk hs
    have := hr.call_lt k hk
    rwa [hs] at this
  obtain ⟨i, hi⟩ := List.getElem?_of_mem (Array.mem_toList_iff.2 hk)
  rcases getElem?_of_mapM hall i with ⟨hnone, _⟩ | ⟨k', site, hk', hsite, hof⟩
  · rw [hi] at hnone
    cases hnone
  · obtain rfl : k = k' := Option.some.inj (hi.symm.trans hk')
    obtain ⟨hcall, hcompletes⟩ := siteOf_ok hof
    rw [Array.getElem?_toList] at hsite
    obtain ⟨j, hj⟩ := Option.isSome_iff_exists.1
      (lastIndexOf?_isSome (q := fun s' : RejoinSite =>
        s'.call == k.call.position s.asm.buffer.fast.size) hsite (beq_iff_eq.2 hcall))
    obtain ⟨site', hsite', hq⟩ := lastIndexOf?_some hj
    -- The last site at this place is that of the same call, since no two calls share one.
    rcases getElem?_of_mapM hall j with ⟨_, hnone⟩ | ⟨k', s', hk', hs', hof'⟩
    · rw [Array.getElem?_toList, hsite'] at hnone
      cases hnone
    · rw [Array.getElem?_toList, hsite'] at hs'
      cases hs'
      have hmem' := Array.mem_toList_iff.1 (List.mem_of_getElem? hk')
      have hlabel : k'.call = k.call :=
        Label.position_inj ((siteOf_ok hof').1.symm.trans (beq_iff_eq.1 hq))
          (hfast k' hmem') (hfast k hk)
      have hij : j = i := by
        refine (List.getElem?_inj ?_ hr.call_nodup).1 ?_
        · have := (List.getElem?_eq_some_iff.1 hk').1
          simpa using this
        · rw [List.getElem?_map, List.getElem?_map, hk', hi, Option.map_some, Option.map_some,
            hlabel]
      subst hij
      exact ⟨j, site, hj, hsite, hcompletes⟩

/-- The code that a compilation ends with contains its draft. -/
theorem finish_contains (hr : s.asm.Regular)
    (hcount : s.asm.buffer.links.size ≤ s.asm.buffer.branchCount) (h : s.finish c = .ok code) :
    code.Contains s.asm := by
  obtain ⟨hinsts, hsites, hcode⟩ := finish_ok h
  have hfast : code.fastLength = s.asm.buffer.fast.size := by rw [hcode]
  have hplace : ∀ l, code.place l = l.position s.asm.buffer.fast.size := by
    intro l
    rw [Code.place, hfast]
  refine ⟨?_, ?_, ?_, ?_⟩
  · intro l i hi ht
    rw [hplace]
    exact finish_inst hinsts hi ht
  · intro l g t hi
    rw [hplace]
    exact finish_branch hinsts hi
  · intro k hk
    obtain ⟨g, t, hi, ht⟩ := finish_link hr.unlinked hcount hinsts hk
    refine ⟨g, t, by rw [hplace]; exact hi, ?_⟩
    cases htarget : k.target with
    | label l =>
      rw [htarget] at ht
      exact congrArg some ((hplace l).trans (Label.absolute_ok ht))
    | pc n =>
      rw [htarget] at ht
      have hoff : code.offset? n = ((s.labels[n]?).join).map
          (·.position s.asm.buffer.fast.size) := by
        rw [hcode, Code.offset?]
        cases hn : s.labels[n]? <;> simp [hn]
      change code.offset? n = some t
      simp only [LinkTarget.resolve] at ht
      rw [hoff]
      split at ht
      · next l hl =>
        rw [hl]
        exact congrArg some (Label.absolute_ok ht)
      · cases ht
  · intro k hk
    rw [hplace]
    exact finish_site hr hsites hk

end Compilation

/-! ### Running emitters -/

theorem AsmM.bind_run (x : AsmM α) (k : α → AsmM β) (a : Assembly) : (x >>= k) a =
    match x a with
    | .ok r b => k r b
    | .error e b => .error e b := by
  change EStateM.bind x k a = _
  unfold EStateM.bind
  cases x a <;> rfl

end FastPath
