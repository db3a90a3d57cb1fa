import FastPath.Proofs.Compile.Totality
import FastPath.Proofs.Machine.Safety

/-!
# Compiled code has no structural faults

When a function has been compiled, every position in its code has a shape, and the branches
lead to positions whose shapes they cover. Laying out the two streams and linking the branches
keeps this: the finished code is `Code.Shaped`, so none of its runs reads a register that has no
contents, or anything else that is not there.
-/

namespace FastPath

open CodeBuffer

theorem Label.position_next (l : Label) (n : Nat) : l.next.position n = l.position n + 1 := by
  obtain ⟨s, o⟩ := l
  cases s <;> rfl

/-! ### Shapes of finished code -/

/-- The shapes of the positions, once the slow stream is behind the fast one. -/
def CodeBuffer.shapes (b : CodeBuffer) (Γ : Label → Shape) (o : Offset) : Shape :=
  if o < b.fast.size then Γ ⟨.fast, o⟩
  else if o < b.laidOut.size then Γ ⟨.slow, o - b.fast.size⟩
  else Shape.all

namespace Compilation.Finished

variable {s : Compilation} {c : Context} {σ : Sketch} {code : Code} {Γ : Label → Shape}

variable {l : Label} {o : Offset}

/-- The shape at a position is that of its label. -/
theorem shapes_eq (hΓ : σ.Typing s.asm.buffer (σ.frame.limit c.slots) Γ)
    (hl : l.offset < σ.size l.stream) :
    s.asm.buffer.shapes Γ (l.position s.asm.buffer.fast.size) = Γ l := by
  rw [← hΓ.size] at hl
  obtain ⟨st, o⟩ := l
  cases st with
  | fast => exact if_pos hl
  | slow =>
    have hge : ¬ s.asm.buffer.fast.size + o < s.asm.buffer.fast.size :=
      Nat.not_lt.2 (Nat.le_add_right _ _)
    have hlt : s.asm.buffer.fast.size + o < s.asm.buffer.laidOut.size := by
      rw [laidOut, Array.size_append]
      exact Nat.add_lt_add_left hl _
    rw [Label.position, shapes, if_neg hge, if_pos hlt, Nat.add_sub_cancel_left]

/-- The ends of the streams are not reached, so it does not matter what stands there. -/
theorem covers_shapes (h : s.Finished c σ) (hΓ : σ.Typing s.asm.buffer (σ.frame.limit c.slots) Γ)
    (hl : l.offset ≤ σ.size l.stream) :
    (Γ l).Covers (s.asm.buffer.shapes Γ (l.position s.asm.buffer.fast.size)) := by
  rcases Nat.lt_or_eq_of_le hl with hlt | heq
  · rw [shapes_eq hΓ hlt]
    exact .refl _
  · have hall : Γ l = Shape.all := by
      obtain ⟨st, o⟩ := l
      obtain rfl : o = σ.size st := heq
      cases st with
      | fast => exact (hΓ.ends .fast).trans h.closed
      | slow => exact (hΓ.ends .slow).trans h.clean.slow
    rw [hall]
    exact Shape.all_covers _

/-- A branch site and a label of the sketch, in the finished code. -/
theorem covers_of_mem (h : s.Finished c σ) (hΓ : σ.Typing s.asm.buffer (σ.frame.limit c.slots) Γ)
    {l' : Label} {S T : Shape} (hS : (l, S) ∈ σ.sites) (hT : (l', T) ∈ σ.targets) :
    (s.asm.buffer.shapes Γ (l.position s.asm.buffer.fast.size)).Covers S ∧
      T.Covers (s.asm.buffer.shapes Γ (l'.position s.asm.buffer.fast.size)) := by
  obtain ⟨hbranch, hcovers⟩ := hΓ.site l S hS
  obtain ⟨hle, hcovers'⟩ := hΓ.target l' T hT
  rw [shapes_eq hΓ (hΓ.size _ ▸ hbranch.lt)]
  exact ⟨hcovers, hcovers'.trans (h.covers_shapes hΓ hle)⟩

variable (h : s.Finished c σ) (hΓ : σ.Typing s.asm.buffer (σ.frame.limit c.slots) Γ)
  (hcode : s.finish c = .ok code)

include h hcode in
theorem frameSize_eq : code.frameSize = σ.frame.limit c.slots + 1 := by
  rw [(finish_ok hcode).2.2, h.typed.asm.books.frame]
  rfl

include h hΓ hcode

/-- Every instruction reads registers that have contents. -/
theorem inst_shaped {i : Inst} (hi : code.insts[o]? = some i) :
    i.Reads code.frameSize (s.asm.buffer.shapes Γ o) ∧
      (i.after (s.asm.buffer.shapes Γ o)).Covers (s.asm.buffer.shapes Γ (o + 1)) := by
  obtain ⟨l, rfl, hl⟩ := exists_inst?_of_finish (finish_ok hcode).1 hi
  -- The target of a branch has nothing to do with what it reads.
  obtain ⟨i₀, hl, hreads, hafter⟩ : ∃ i₀, s.asm.buffer.inst? l = some i₀ ∧
      (∀ n P, i₀.Reads n P → i.Reads n P) ∧ ∀ P, i₀.after P = i.after P := by
    rcases hl with hl | ⟨g, t, t', rfl, hl⟩
    · exact ⟨i, hl, fun _ _ => id, fun _ => rfl⟩
    · exact ⟨_, hl, fun _ _ => id, fun _ => rfl⟩
  obtain ⟨hr, ha⟩ := hΓ.inst l i₀ hl
  have hlt := hΓ.lt hl
  rw [shapes_eq hΓ hlt, ← Label.position_next, ← hafter, h.frameSize_eq hcode]
  exact ⟨(hreads _ _ hr).mono (Nat.le_succ _) (.refl _), ha.trans (h.covers_shapes hΓ hlt)⟩

/-- A branch leads to where no more registers are needed. -/
theorem branch_shaped {g : Guard} {t : Offset} (hi : code.insts[o]? = some (.branch g t)) :
    (s.asm.buffer.shapes Γ o).Covers (s.asm.buffer.shapes Γ t) := by
  have hinsts := (finish_ok hcode).1
  obtain ⟨l, rfl, hl⟩ := exists_inst?_of_finish hinsts hi
  obtain ⟨t₀, hl⟩ : ∃ t₀, s.asm.buffer.inst? l = some (.branch g t₀) := by
    rcases hl with hl | ⟨_, _, t', ⟨⟩, hl⟩
    · exact ⟨t, hl⟩
    · exact ⟨t', hl⟩
  obtain ⟨k, hk, hpos, t', hi', hres⟩ :=
    finish_target hinsts hl (h.named ⟨g, t₀, hl⟩)
  cases hi.symm.trans hi'
  obtain ⟨l', S, T, hres', hS, hT, hST⟩ := h.link hk s.asm.buffer.fast.size
  obtain rfl := Label.absolute_ok (hres'.symm.trans hres)
  obtain ⟨hcovers, hcovers'⟩ := h.covers_of_mem hΓ hS hT
  rw [show k.jump.position _ = _ from hpos] at hcovers
  exact (hcovers.trans hST).trans hcovers'

omit hΓ in
/-- Every call has a site. -/
theorem call_site {i : Inst} (hi : code.insts[o]? = some i) (hcall : i.isCall) :
    ∃ k site, code.siteIndex? o = some k ∧ code.sites[k]? = some site := by
  obtain ⟨hinsts, hsites, -⟩ := finish_ok hcode
  obtain ⟨l, rfl, hl⟩ := exists_inst?_of_finish hinsts hi
  have hl : s.asm.buffer.inst? l = some i := by
    rcases hl with hl | ⟨g, t, t', rfl, -⟩
    · exact hl
    · cases hcall
  obtain ⟨k, hk, rfl⟩ := h.typed.asm.books.call l i hl hcall
  obtain ⟨j, hj⟩ := List.getElem?_of_mem (Array.mem_toList_iff.2 hk)
  rcases getElem?_of_mapM (mapM_sites hsites) j with ⟨hnone, -⟩ | ⟨k', site, hk', hsite, hof⟩
  · cases hj.symm.trans hnone
  · obtain rfl : k = k' := Option.some.inj (hj.symm.trans hk')
    obtain ⟨n, hn⟩ := Option.isSome_iff_exists.1 (lastIndexOf?_isSome
      (q := fun s' : RejoinSite => s'.call == k.call.position s.asm.buffer.fast.size)
      (Array.getElem?_toList ▸ hsite) (beq_iff_eq.2 (siteOf_ok hof).1))
    obtain ⟨site', hsite', -⟩ := lastIndexOf?_some hn
    exact ⟨n, site', hn, hsite'⟩

omit hΓ in
/-- The stack pointers of a call are in the frame. -/
theorem site_lt {site : RejoinSite} (hsite : site ∈ code.sites) :
    site.sp < code.frameSize ∧ site.spAfter < code.frameSize := by
  obtain ⟨j, hj⟩ := List.getElem?_of_mem (Array.mem_toList_iff.2 hsite)
  rcases getElem?_of_mapM (mapM_sites (finish_ok hcode).2.1) j with
    ⟨-, hnone⟩ | ⟨k, site', hk, hsite', hof⟩
  · cases hj.symm.trans hnone
  · obtain rfl : site = site' := Option.some.inj (hj.symm.trans hsite')
    have hcompletes := (siteOf_ok hof).2
    have hk := Array.getElem?_toList ▸ hk
    obtain ⟨hsp, hafter⟩ := h.typed.asm.books.sp k (Array.mem_of_getElem? hk)
    obtain ⟨n, hn⟩ := Option.isSome_iff_exists.1
      (h.typed.asm.books.complete j k hk (.inr h.clean.pending))
    rw [h.frameSize_eq hcode, hcompletes.sp, hcompletes.spAfter n hn]
    exact ⟨Nat.lt_succ_of_le hsp, Nat.lt_succ_of_le (hafter n hn)⟩

omit hΓ in
theorem caches_eq : code.caches =
    σ.caches.toArray.map (·.map (·.position s.asm.buffer.fast.size)) := by
  rw [(finish_ok hcode).2.2, ← h.typed.caches]

/-- Finished code has shapes. -/
theorem shaped : code.Shaped (s.asm.buffer.shapes Γ) where
  inst _ _ hi := h.inst_shaped hΓ hcode hi
  branch _ _ _ hi := h.branch_shaped hΓ hcode hi
  ends o ho := by
    have hsize := size_of_finish (finish_ok hcode).1
    have hge : s.asm.buffer.laidOut.size ≤ o := hsize ▸ Array.getElem?_eq_none_iff.1 ho
    have hfast : s.asm.buffer.fast.size ≤ o :=
      Nat.le_trans (Nat.le_add_right _ _) (Array.size_append ▸ hge)
    rw [shapes, if_neg (Nat.not_lt.2 hfast), if_neg (Nat.not_lt.2 hge)]
  entry := by
    obtain ⟨l, hl, ht⟩ := h.label 0 (.inr rfl)
    obtain ⟨hle, hcovers⟩ := hΓ.target l _ ht
    refine ⟨l.position s.asm.buffer.fast.size, ?_, hcovers.trans (h.covers_shapes hΓ hle)⟩
    rw [(finish_ok hcode).2.2, Code.offset?, Array.getElem?_map, hl]
    rfl
  call _ _ hi hcall := h.call_site hcode hi hcall
  site _ hsite := h.site_lt hcode hsite
  cache o n sp mask hi := by
    obtain ⟨l, rfl, hl⟩ := exists_inst?_of_finish (finish_ok hcode).1 hi
    have hl : s.asm.buffer.inst? l = some (.callCache n sp mask) := by
      rcases hl with hl | ⟨_, _, _, ⟨⟩, -⟩
      exact hl
    obtain ⟨k, hk, huses, hsp⟩ := h.typed.asm.books.cache l n sp mask hl
    refine ⟨k.map (·.position s.asm.buffer.fast.size), ?_, huses, ?_⟩
    · rw [h.caches_eq hcode, Array.getElem?_map, List.getElem?_toArray, hk]
      rfl
    · rw [h.frameSize_eq hcode]
      exact Nat.lt_succ_of_le hsp
  start k hk := by
    rw [h.caches_eq hcode] at hk
    obtain ⟨k, hmem, rfl⟩ := Array.mem_map.1 hk
    obtain ⟨S, T, hS, hT, hc⟩ := (h.typed.asm.books.serves k (List.mem_toArray.1 hmem)).start
    obtain ⟨hcovers, hcovers'⟩ := h.covers_of_mem hΓ hS hT
    exact (hcovers.trans hc).trans hcovers'
  guard k hk := by
    rw [h.caches_eq hcode] at hk
    obtain ⟨k, hmem, rfl⟩ := Array.mem_map.1 hk
    obtain ⟨S, T, hS, hT, hobj, hkey, hhits⟩ :=
      (h.typed.asm.books.serves k (List.mem_toArray.1 hmem)).guard
    obtain ⟨hcovers, hcovers'⟩ := h.covers_of_mem hΓ hS hT
    exact ⟨hcovers.reg _ hobj, hkey.mono hcovers, hhits.mono hcovers hcovers'⟩

end Compilation.Finished

/-! ### Runs of compiled code -/

/-- What becomes of code that is run any number of times, as any function, on any heaps. -/
inductive LiveCode.Used (code : Code) : LiveCode → Prop where
  | fresh : Used code (.ofCode code)
  | run {live : LiveCode} (h : Used code live) (function : Bytecode.Function) (heap : Heap)
      (args : List Value) (limit : Nat) (counting : Bool) :
      Used code (live.run function heap args limit counting).live

theorem LiveCode.code_run (live : LiveCode) (function : Bytecode.Function) (heap : Heap)
    (args : List Value) (limit : Nat) (counting : Bool) :
    (live.run function heap args limit counting).live.code = live.code := by
  unfold LiveCode.run
  split <;> rfl

/-- The code stays as it is, with one state for each of its caches. -/
theorem LiveCode.Used.states {code : Code} {Γ : Offset → Shape} (hc : code.Shaped Γ)
    {live : LiveCode} (h : Used code live) :
    live.code = code ∧ live.states.size = code.caches.size := by
  induction h with
  | fresh => exact ⟨rfl, Array.size_replicate⟩
  | run _ function heap args limit counting ih =>
    obtain ⟨rfl, hstates⟩ := ih
    refine ⟨code_run .., ?_⟩
    exact (LiveCode.run_safe hc hstates function heap args limit counting).2

/-- **Compiled code never trips the structural checks of the machine**: whatever the oracle, the
hoister and the switches were, no run of the code reads a register without contents or a register
or slot that does not exist, leaves the code, or misses a cache or a site, on any heap and with
any arguments, after any runs before it. -/
theorem LiveCode.Used.not_structural {source function : Bytecode.Function} {heap heap' : Heap}
    {oracle : Oracle} {hoister : Hoister} {config : Config} {compiled : Compiled}
    (hcompile : compile source heap oracle hoister config = .ok compiled) {live : LiveCode}
    (hlive : Used compiled.code live) (args : List Value) (limit : Nat) (counting : Bool) (f : Fault)
    (hfault : (live.run function heap' args limit counting).outcome = .error f) :
    f.isStructural = false := by
  obtain ⟨c, s, σ, hs, hfinish⟩ := finished_of_compile hcompile
  obtain ⟨Γ, hΓ⟩ := hs.typed.asm.typing
  have hshaped := hs.shaped hΓ hfinish
  obtain ⟨hcode, hstates⟩ := hlive.states hshaped
  rw [← hcode] at hshaped hstates
  exact (LiveCode.run_safe hshaped hstates function heap' args limit counting).1 f hfault

theorem LiveCode.Used.not_structural_increment : ∃ compiled f,
    compile increment .new .silent .never .standard = .ok compiled ∧
    ((LiveCode.ofCode compiled.code).run increment .new [.int32 41] 3 true).outcome = .error f ∧
    f.isStructural = false := by
  have hv : increment.validate = .ok () := by decide +kernel
  have hrun : (match CompileM.compileFor increment 5 0 true incrementContext
      (.start incrementContext) with
    | .ok () s => match s.finish incrementContext with
      | .ok code => decide (((LiveCode.ofCode code).run increment .new [.int32 41] 3 true).outcome =
          .error (.stepLimit 3))
      | .error _ => false
    | .error _ _ => false) = true := by decide +kernel
  rw [CompileM.compileFor_eq] at hrun
  split at hrun
  · next s hs =>
    split at hrun
    · next code hcode =>
      have hwith : compileWith incrementContext = .ok ⟨code, s.queries⟩ := by
        rw [compileWith, show CompileM.compileFrom incrementContext.function 0 true incrementContext
          (.start incrementContext) = .ok () s from hs]
        dsimp only
        rw [hcode]
        rfl
      have hcompile := (compile_eq hv analyze_increment).trans hwith
      have hfault := of_decide_eq_true hrun
      exact ⟨_, _, hcompile, hfault, not_structural hcompile .fresh _ _ _ _ hfault⟩
    · cases hrun
  · cases hrun

end FastPath
