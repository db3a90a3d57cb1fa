import FastPath.Code.Basic
import FastPath.Code.Link
import Mathlib.Data.List.Nodup
import Mathlib.Data.List.Perm.Subperm

/-!
# What linking does

Linking goes through the recorded links and gives each named branch its target. Nothing
else changes: instructions that are no branches stay as they are, and a branch keeps its
guard. Of several links that name one branch the last is honoured. The first link with a
fault ends it, and so does a branch that is left without a target.

That no two links name one branch is a matter of counting. Every branch is named, so if
there are no more links than branches, each is named once.

The tables of finished code are searched from their ends.

## Main results

* `Link.foldlM_apply`: what applying a number of links comes to.
* `CodeBuffer.finish_inst`, `CodeBuffer.finish_branch`: finished code has the emitted
  instructions in their places.
* `CodeBuffer.finish_link`: in finished code every link is honoured.
* `CodeBuffer.finish_exact`: when code can be finished, what it is then, and the error
  otherwise.
-/

namespace FastPath

/-! ### Searching from the end -/

section LastIndex

variable {α : Type} {q : α → Bool} {xs : Array α}

theorem lastIndexOf?_some {i : Nat} (h : lastIndexOf? q xs = some i) :
    ∃ x, xs[i]? = some x ∧ q x := by
  obtain ⟨j, hj, rfl⟩ := Option.map_eq_some_iff.1 h
  obtain ⟨hlt, hq, _⟩ := List.findIdx?_eq_some_iff_getElem.1 hj
  rw [List.length_reverse, Array.length_toList] at hlt
  refine ⟨xs[xs.size - 1 - j], Array.getElem?_eq_getElem (by omega), ?_⟩
  simpa [List.getElem_reverse] using hq

theorem lastIndexOf?_isSome {i : Nat} {x : α} (hx : xs[i]? = some x) (hq : q x) :
    (lastIndexOf? q xs).isSome := by
  cases h : lastIndexOf? q xs with
  | some j => rfl
  | none =>
    have hnone := List.findIdx?_eq_none_iff.1 (Option.map_eq_none_iff.1 h)
    have hmem : x ∈ xs.toList.reverse :=
      List.mem_reverse.2 (Array.mem_toList_iff.2 (Array.mem_of_getElem? hx))
    rw [hnone x hmem] at hq
    cases hq

end LastIndex

/-! ### Applying links -/

/-- A branch with the target, if there is one; other instructions as they are. -/
def Inst.settle (target : Option Offset) : Inst → Inst
  | .branch g t => .branch g (target.getD t)
  | i => i

theorem Inst.settle_of_target? {i : Inst} (h : i.target? = none) (t : Option Offset) :
    i.settle t = i := by
  cases i with
  | branch g t₀ => cases h
  | _ => rfl

theorem Inst.settle_none (i : Inst) : i.settle none = i := by cases i <;> rfl

theorem Inst.target?_settle (i : Inst) (t : Option Offset) :
    (i.settle t).target? = i.target?.map t.getD := by
  cases i <;> rfl

namespace Link

variable {pcs : Array (Option Label)} {n : Nat} {insts : Array Inst}

/-- Where the branch of a link stands. -/
def position (n : Nat) (k : Link) : Offset := k.jump.position n

/-- What is wrong with a link: it leads nowhere, its position is no word, or it names no branch. -/
def fault? (pcs : Array (Option Label)) (n : Nat) (insts : Array Inst) (k : Link) :
    Option CompileError :=
  match k.target.resolve pcs n with
  | .error e => some e
  | .ok _ =>
    if UInt32.size ≤ k.position n then some .offsetOverflow
    else if (insts[k.position n]?.bind Inst.target?).isSome then none
    else some (.unlinkedJump (k.position n))

/-- Where the links let the branch at an offset lead: the last one that names it counts. -/
def lead? (pcs : Array (Option Label)) (n : Nat) (ks : List Link) (o : Offset) : Option Offset :=
  ks.reverse.findSome? fun k =>
    if k.position n = o then (k.target.resolve pcs n).toOption else none

/-- The instructions with every branch led where the links say. -/
def lead (pcs : Array (Option Label)) (n : Nat) (ks : List Link) (insts : Array Inst) :
    Array Inst :=
  insts.mapIdx fun o => Inst.settle (lead? pcs n ks o)

/-- A link without fault names a branch and has a target. -/
theorem fault?_eq_none {k : Link} (h : k.fault? pcs n insts = none) :
    ∃ g t₀ t, insts[k.position n]? = some (.branch g t₀) ∧ k.target.resolve pcs n = .ok t ∧
      k.jump.absolute n = .ok (k.position n) := by
  unfold fault? at h
  split at h
  · cases h
  · next t ht =>
    split at h
    · cases h
    · next hfit =>
      have hword : k.jump.absolute n = .ok (k.position n) := if_pos (Nat.lt_of_not_le hfit)
      cases hi : insts[k.position n]? with
      | none => simp [hi] at h
      | some i =>
        cases i with
        | branch g t₀ => exact ⟨g, t₀, t, rfl, ht, hword⟩
        | _ => simp [hi, Inst.target?] at h

theorem lead_cons (k : Link) (ks : List Link) (insts : Array Inst) :
    lead pcs n (k :: ks) insts = lead pcs n ks (lead pcs n [k] insts) := by
  unfold lead
  rw [Array.mapIdx_mapIdx]
  congr 1
  funext o i
  have hor : lead? pcs n (k :: ks) o = (lead? pcs n ks o).or (lead? pcs n [k] o) := by
    simp [lead?, List.findSome?_append]
  cases i <;> simp [Inst.settle, hor]

theorem fault?_lead (ks : List Link) (insts : Array Inst) :
    fault? pcs n (lead pcs n ks insts) = fault? pcs n insts := by
  funext k
  unfold fault? lead
  rw [Array.getElem?_mapIdx]
  cases insts[k.position n]? <;> simp [Inst.target?_settle]

theorem apply_run (k : Link) (insts : Array Inst) : apply pcs n insts k =
    k.target.resolve pcs n >>= fun t => k.jump.absolute n >>= fun o =>
      match insts[o]?.bind (Inst.retarget? t) with
      | some i => .ok (insts.setIfInBounds o i)
      | none => .error (.unlinkedJump o) :=
  rfl

/-- A link is either refused or leads its jump to the target. -/
theorem apply_eq (k : Link) (insts : Array Inst) : apply pcs n insts k =
    match k.fault? pcs n insts with
    | some e => .error e
    | none => .ok (lead pcs n [k] insts) := by
  rw [apply_run]
  cases hf : k.fault? pcs n insts with
  | none =>
    obtain ⟨g, t₀, t, hi, ht, hword⟩ := fault?_eq_none hf
    rw [ht, hword]
    simp only [bind, Except.bind, hi]
    refine congrArg Except.ok (Array.ext_getElem? fun o => ?_)
    rw [Array.getElem?_setIfInBounds, lead, Array.getElem?_mapIdx]
    split
    · next heq =>
      rw [← heq, if_pos (Array.getElem?_eq_some_iff.1 hi).1, hi]
      simp [lead?, ht, Inst.settle, Except.toOption]
    · next hne => cases insts[o]? <;> simp [lead?, hne, Inst.settle_none]
  | some e =>
    unfold fault? at hf
    split at hf
    · next ht =>
      cases hf
      rw [ht]
      rfl
    · next t ht =>
      rw [ht]
      split at hf
      · next hbig =>
        cases hf
        rw [show k.jump.absolute n = .error .offsetOverflow from if_neg (Nat.not_lt.2 hbig)]
        rfl
      · next hfit =>
        rw [show k.jump.absolute n = .ok (k.position n) from if_pos (Nat.lt_of_not_le hfit)]
        cases hi : insts[k.position n]? with
        | none => simp_all [bind, Except.bind]
        | some i => cases i <;> simp_all [Inst.target?, Inst.retarget?, bind, Except.bind]

/-- Links are applied up to the first one with a fault. -/
theorem foldlM_apply (ks : List Link) (insts : Array Inst) : ks.foldlM (apply pcs n) insts =
    match ks.findSome? (fault? pcs n insts) with
    | some e => .error e
    | none => .ok (lead pcs n ks insts) := by
  induction ks generalizing insts with
  | nil =>
    refine congrArg Except.ok (Array.ext_getElem? fun o => ?_)
    rw [lead, Array.getElem?_mapIdx]
    cases insts[o]? <;> simp [lead?, Inst.settle_none]
  | cons k ks ih =>
    rw [List.foldlM_cons, apply_eq, List.findSome?_cons]
    cases k.fault? pcs n insts with
    | some e => rfl
    | none =>
      refine (ih _).trans ?_
      simp only [fault?_lead, lead_cons k ks]

variable {ks : List Link} {o : Offset}

/-- A branch that a link names is led where one of its links says. -/
theorem lead?_of_named (hall : ∀ k ∈ ks, k.fault? pcs n insts = none)
    (ho : ∃ k ∈ ks, k.position n = o) :
    ∃ k ∈ ks, k.position n = o ∧ ∃ t, lead? pcs n ks o = some t ∧
      k.target.resolve pcs n = .ok t := by
  have hresolve : ∀ k ∈ ks, ∃ t, k.target.resolve pcs n = .ok t := fun k hk =>
    have ⟨_, _, t, _, ht, _⟩ := fault?_eq_none (hall k hk)
    ⟨t, ht⟩
  cases hlead : lead? pcs n ks o with
  | none =>
    obtain ⟨k, hk, hpos⟩ := ho
    obtain ⟨t, ht⟩ := hresolve k hk
    have := List.findSome?_eq_none_iff.1 hlead k (List.mem_reverse.2 hk)
    simp [hpos, ht, Except.toOption] at this
  | some t =>
    obtain ⟨k, hk, hkt⟩ := List.exists_of_findSome?_eq_some hlead
    have hmem := List.mem_reverse.1 hk
    obtain ⟨t', ht'⟩ := hresolve k hmem
    split at hkt
    · next hpos =>
      rw [ht'] at hkt
      exact ⟨k, hmem, hpos, t, rfl, Option.some.inj hkt ▸ ht'⟩
    · cases hkt

theorem lead?_of_unnamed (ho : ∀ k ∈ ks, k.position n ≠ o) : lead? pcs n ks o = none :=
  List.findSome?_eq_none_iff.2 fun k hk => if_neg (ho k (List.mem_reverse.1 hk))

end Link

/-! ### Finished code -/

namespace CodeBuffer

variable {b : CodeBuffer} {pcs : Array (Option Label)} {insts : Array Inst} {n : Nat}

/-- The instruction at a label. -/
def inst? (b : CodeBuffer) (l : Label) : Option Inst := (b.stream l.stream)[l.offset]?

/-- The number of branches. -/
def branchCount (b : CodeBuffer) : Nat :=
  b.fast.toList.countP (·.target?.isSome) + b.slow.toList.countP (·.target?.isSome)

/-- No branch has a target yet. -/
def Unlinked (b : CodeBuffer) : Prop :=
  ∀ l g t, b.inst? l = some (.branch g t) → t = Inst.unlinked

variable {l : Label} {i : Inst} {o t : Offset} {g : Guard}

theorem laidOut_of_inst? (h : b.inst? l = some i) :
    b.laidOut[l.position b.fast.size]? = some i := by
  obtain ⟨s, o⟩ := l
  cases s with
  | fast =>
    have hlt : o < b.fast.size := (Array.getElem?_eq_some_iff.1 h).1
    exact (Array.getElem?_append_left hlt).trans h
  | slow =>
    change (b.fast ++ b.slow)[b.fast.size + o]? = _
    rw [Array.getElem?_append_right (Nat.le_add_right _ _), Nat.add_sub_cancel_left]
    exact h

theorem exists_inst?_of_laidOut (h : b.laidOut[o]? = some i) :
    ∃ l : Label, b.inst? l = some i ∧ l.position b.fast.size = o := by
  change (b.fast ++ b.slow)[o]? = _ at h
  rw [Array.getElem?_append] at h
  split at h
  · exact ⟨⟨.fast, o⟩, h, rfl⟩
  · next hge => exact ⟨⟨.slow, o - b.fast.size⟩, h, Nat.add_sub_cancel' (Nat.le_of_not_lt hge)⟩

/-- The code with every branch led where the links say. -/
def linked (b : CodeBuffer) (pcs : Array (Option Label)) : Array Inst :=
  Link.lead pcs b.fast.size b.links.toList b.laidOut

/-- What is wrong with a link of the code. -/
def fault? (b : CodeBuffer) (pcs : Array (Option Label)) (k : Link) : Option CompileError :=
  k.fault? pcs b.fast.size b.laidOut

theorem getElem?_linked (b : CodeBuffer) (pcs : Array (Option Label)) (o : Offset) :
    (b.linked pcs)[o]? =
      b.laidOut[o]?.map (Inst.settle (Link.lead? pcs b.fast.size b.links.toList o)) :=
  Array.getElem?_mapIdx

/-- Faults of links come before branches without target. -/
theorem finish_eq (b : CodeBuffer) (pcs : Array (Option Label)) : b.finish pcs =
    match b.links.toList.findSome? (b.fault? pcs) with
    | some e => .error e
    | none =>
      match (b.linked pcs).findIdx? Inst.isUnlinked with
      | some o => .error (.unlinkedJump o)
      | none => .ok (b.linked pcs, b.fast.size) := by
  unfold finish
  rw [Link.foldlM_apply]
  change _ = match b.links.toList.findSome? (Link.fault? pcs b.fast.size b.laidOut) with
    | some e => _
    | none => _
  cases b.links.toList.findSome? (Link.fault? pcs b.fast.size b.laidOut) <;> rfl

/-- What is known of code that has been finished. -/
theorem finish_ok (h : b.finish pcs = .ok (insts, n)) :
    insts = b.linked pcs ∧ n = b.fast.size ∧ (∀ k ∈ b.links.toList, b.fault? pcs k = none) ∧
    ∀ o : Offset, ∀ g, insts[o]? ≠ some (.branch g Inst.unlinked) := by
  rw [finish_eq] at h
  split at h
  · cases h
  · next hall =>
    split at h
    · cases h
    · next hnone =>
      cases h
      refine ⟨rfl, rfl, List.findSome?_eq_none_iff.1 hall, fun o g ho => ?_⟩
      have := Array.findIdx?_eq_none_iff.1 hnone _ (Array.mem_of_getElem? ho)
      simp [Inst.isUnlinked, Inst.target?] at this

theorem size_of_finish (h : b.finish pcs = .ok (insts, n)) : insts.size = b.laidOut.size := by
  rw [(finish_ok h).1, linked, Link.lead, Array.size_mapIdx]

/-- Every branch is named by a link. -/
theorem exists_link (hun : b.Unlinked) (h : b.finish pcs = .ok (insts, n))
    (ho : b.laidOut[o]? = some (.branch g t)) : ∃ k ∈ b.links, k.position b.fast.size = o := by
  obtain ⟨rfl, -, -, hlinked⟩ := finish_ok h
  by_contra hnone
  obtain ⟨l, hl, -⟩ := exists_inst?_of_laidOut ho
  obtain rfl := hun l g t hl
  refine hlinked o g ?_
  rw [getElem?_linked, ho, Link.lead?_of_unnamed fun k hk heq =>
    hnone ⟨k, Array.mem_toList_iff.1 hk, heq⟩]
  rfl

/-- With no more links than branches, no two links name one branch. -/
theorem nodup_links (hun : b.Unlinked) (hcount : b.links.size ≤ b.branchCount)
    (h : b.finish pcs = .ok (insts, n)) :
    (b.links.toList.map (Link.position b.fast.size)).Nodup := by
  let branches := b.laidOut.toList.findIdxs (·.target?.isSome)
  have hsub : branches ⊆ b.links.toList.map (Link.position b.fast.size) := by
    intro o ho
    obtain ⟨hlt, hi⟩ := List.mem_findIdxs_iff_exists_getElem_pos.1 ho
    cases hget : b.laidOut.toList[o] with
    | branch g t =>
      have hget' := List.getElem?_eq_some_iff.2 ⟨hlt, hget⟩
      obtain ⟨k, hk, heq⟩ := exists_link hun h (Array.getElem?_toList ▸ hget')
      exact List.mem_map.2 ⟨k, Array.mem_toList_iff.2 hk, heq⟩
    | _ =>
      rw [hget] at hi
      cases hi
  have hlen : (b.links.toList.map (Link.position b.fast.size)).length ≤ branches.length := by
    rw [List.length_findIdxs, List.length_map, Array.length_toList, laidOut, Array.toList_append,
      List.countP_append]
    exact hcount
  have hperm := (List.nodup_findIdxs.subperm hsub).perm_of_length_le hlen
  exact hperm.nodup_iff.1 List.nodup_findIdxs

theorem finish_inst (h : b.finish pcs = .ok (insts, n)) (hl : b.inst? l = some i)
    (hi : i.target? = none) :
    insts[l.position b.fast.size]? = some i := by
  rw [(finish_ok h).1, getElem?_linked, laidOut_of_inst? hl, Option.map_some,
    Inst.settle_of_target? hi]

theorem finish_branch (h : b.finish pcs = .ok (insts, n)) (hl : b.inst? l = some (.branch g t)) :
    ∃ t', insts[l.position b.fast.size]? = some (.branch g t') :=
  ⟨_, by rw [(finish_ok h).1, getElem?_linked, laidOut_of_inst? hl]; rfl⟩

/-- Finished code has only instructions that were emitted, apart from the targets of branches. -/
theorem exists_inst?_of_finish (h : b.finish pcs = .ok (insts, n)) (hi : insts[o]? = some i) :
    ∃ l : Label, l.position b.fast.size = o ∧
      (b.inst? l = some i ∨ ∃ g t t', i = .branch g t ∧ b.inst? l = some (.branch g t')) := by
  have hlt : o < b.laidOut.size := by
    rw [← size_of_finish h]
    exact (Array.getElem?_eq_some_iff.1 hi).1
  obtain ⟨l, hl, rfl⟩ := exists_inst?_of_laidOut (Array.getElem?_eq_getElem hlt)
  refine ⟨l, rfl, ?_⟩
  cases hemitted : b.laidOut[l.position b.fast.size] with
  | branch g t' =>
    rw [hemitted] at hl
    obtain ⟨t, ht⟩ := finish_branch h hl
    exact .inr ⟨g, t, t', Option.some.inj (hi.symm.trans ht), hl⟩
  | _ =>
    rw [hemitted] at hl
    rw [hi.symm.trans (finish_inst h hl rfl)]
    exact .inl hl

/-- A branch that a link names leads where one of its links says. -/
theorem linked_of_named (hall : ∀ k ∈ b.links.toList, b.fault? pcs k = none)
    (hi : b.laidOut[o]? = some (.branch g t)) (ho : ∃ k ∈ b.links, k.position b.fast.size = o) :
    ∃ k ∈ b.links, k.position b.fast.size = o ∧ ∃ t', (b.linked pcs)[o]? = some (.branch g t') ∧
      k.target.resolve pcs b.fast.size = .ok t' := by
  obtain ⟨k, hk, hpos, t', hlead, ht⟩ := Link.lead?_of_named hall (by simpa using ho)
  refine ⟨k, Array.mem_toList_iff.1 hk, hpos, t', ?_, ht⟩
  rw [getElem?_linked, hi, hlead]
  rfl

theorem finish_target (h : b.finish pcs = .ok (insts, n)) (hl : b.inst? l = some (.branch g t))
    (hk : ∃ k ∈ b.links, k.jump = l) :
    ∃ k ∈ b.links, k.position b.fast.size = l.position b.fast.size ∧
      ∃ t', insts[l.position b.fast.size]? = some (.branch g t') ∧
        k.target.resolve pcs b.fast.size = .ok t' := by
  obtain ⟨rfl, -, hall, -⟩ := finish_ok h
  exact linked_of_named hall (laidOut_of_inst? hl)
    (hk.imp fun _ ⟨hmem, hjump⟩ => ⟨hmem, hjump ▸ rfl⟩)

/-- Every link is honoured. -/
theorem finish_link (hun : b.Unlinked) (hcount : b.links.size ≤ b.branchCount)
    (h : b.finish pcs = .ok (insts, n)) {k : Link} (hk : k ∈ b.links) :
    ∃ g t, insts[k.position b.fast.size]? = some (.branch g t) ∧
      k.target.resolve pcs b.fast.size = .ok t := by
  have hnodup := nodup_links hun hcount h
  obtain ⟨rfl, -, hall, -⟩ := finish_ok h
  obtain ⟨g, t₀, -, hi, -, -⟩ := Link.fault?_eq_none (hall k (Array.mem_toList_iff.2 hk))
  obtain ⟨k', hk', hpos, t, hit, ht⟩ := linked_of_named hall hi ⟨k, hk, rfl⟩
  obtain rfl := List.inj_on_of_nodup_map hnodup (Array.mem_toList_iff.2 hk')
    (Array.mem_toList_iff.2 hk) hpos
  exact ⟨g, t, hit, ht⟩

/-! ### When code can be finished -/

/-- A branch without target that no link names. -/
def Dangling (b : CodeBuffer) (o : Offset) : Prop :=
  (∃ g, b.laidOut[o]? = some (.branch g Inst.unlinked)) ∧ ∀ k ∈ b.links, k.position b.fast.size ≠ o

/-- A branch is left without target if no link names it, or if a link leads to the address that is
kept for such branches. -/
theorem dangling_or_of_linked (hall : ∀ k ∈ b.links.toList, b.fault? pcs k = none)
    (h : (b.linked pcs)[o]? = some (.branch g Inst.unlinked)) :
    b.Dangling o ∨ ∃ k ∈ b.links, k.target.resolve pcs b.fast.size = .ok Inst.unlinked := by
  have hget := h
  rw [getElem?_linked] at hget
  obtain ⟨i, hi, hs⟩ := Option.map_eq_some_iff.1 hget
  cases i with
  | branch g' t =>
    by_cases ho : ∃ k ∈ b.links, k.position b.fast.size = o
    · obtain ⟨k, hk, -, t', hit, ht⟩ := linked_of_named hall hi ho
      cases h.symm.trans hit
      exact .inr ⟨k, hk, ht⟩
    · have hnot : ∀ k ∈ b.links, k.position b.fast.size ≠ o := fun k hk heq => ho ⟨k, hk, heq⟩
      rw [Link.lead?_of_unnamed (by simpa using hnot), Inst.settle_none] at hs
      exact .inl ⟨⟨g, hs ▸ hi⟩, hnot⟩
  | _ => cases hs

theorem linked_of_dangling (h : b.Dangling o) :
    ∃ g, (b.linked pcs)[o]? = some (.branch g Inst.unlinked) := by
  obtain ⟨⟨g, hi⟩, hnot⟩ := h
  exact ⟨g, by rw [getElem?_linked, hi, Link.lead?_of_unnamed (by simpa using hnot)]; rfl⟩

theorem isUnlinked_iff : i.isUnlinked ↔ ∃ g, i = .branch g Inst.unlinked := by
  cases i <;> simp [Inst.isUnlinked, Inst.target?]

/-- Code in which every branch is named by a link, and every link leads to a place in the code, can
be finished if it has fewer instructions than there are addresses. -/
theorem finish_isOk (pcs : Array (Option Label)) (hsize : b.laidOut.size < Inst.unlinked)
    (hnamed : ∀ l g t, b.inst? l = some (.branch g t) → ∃ k ∈ b.links, k.jump = l)
    (hlinks : ∀ k ∈ b.links, (∃ g t, b.inst? k.jump = some (.branch g t)) ∧ ∃ l : Label,
      k.target.resolve pcs b.fast.size = l.absolute b.fast.size ∧
        l.position b.fast.size ≤ b.laidOut.size) :
    ∃ insts, b.finish pcs = .ok (insts, b.fast.size) := by
  have hword : Inst.unlinked < UInt32.size := by decide
  have htarget : ∀ k ∈ b.links, ∃ t, k.target.resolve pcs b.fast.size = .ok t ∧
      t ≠ Inst.unlinked := by
    intro k hk
    obtain ⟨-, l, hl, hle⟩ := hlinks k hk
    have hlt := Nat.lt_of_le_of_lt hle hsize
    exact ⟨_, hl.trans (if_pos (Nat.lt_trans hlt hword)), Nat.ne_of_lt hlt⟩
  have hall : ∀ k ∈ b.links.toList, b.fault? pcs k = none := fun k hk => by
    obtain ⟨⟨g, t, hi⟩, -⟩ := hlinks k (Array.mem_toList_iff.1 hk)
    obtain ⟨t', ht', -⟩ := htarget k (Array.mem_toList_iff.1 hk)
    have hbranch : b.laidOut[k.position b.fast.size]? = some (.branch g t) := laidOut_of_inst? hi
    have hfit := Nat.lt_trans (Array.getElem?_eq_some_iff.1 hbranch).1 (Nat.lt_trans hsize hword)
    simp [fault?, Link.fault?, ht', hbranch, Inst.target?, Nat.not_le.2 hfit]
  rw [finish_eq, List.findSome?_eq_none_iff.2 hall]
  dsimp only
  split
  · next p hidx =>
    obtain ⟨hlt, hun, -⟩ := Array.findIdx?_eq_some_iff_getElem.1 hidx
    obtain ⟨g, hg⟩ := isUnlinked_iff.1 hun
    rcases dangling_or_of_linked hall (Array.getElem?_eq_some_iff.2 ⟨hlt, hg⟩) with
      ⟨⟨g, hi⟩, hnot⟩ | ⟨k, hk, hres⟩
    · obtain ⟨l, hl, rfl⟩ := exists_inst?_of_laidOut hi
      obtain ⟨k, hk, rfl⟩ := hnamed l g _ hl
      exact absurd rfl (hnot k hk)
    · obtain ⟨t, ht, hne⟩ := htarget k hk
      exact absurd (Except.ok.inj (ht.symm.trans hres)) hne
  · exact ⟨_, rfl⟩

end CodeBuffer

end FastPath
