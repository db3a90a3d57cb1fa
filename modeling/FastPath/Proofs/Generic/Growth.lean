import FastPath.Proofs.Generic.Same

/-!
# Growth of the heap

Linking a function adds strings to the heap, and nothing else. What has been looked up once is found
again later: code that was compiled for a heap stays right for every heap it grows into.
-/

namespace FastPath

/-- The second heap is the first with more strings. -/
structure Heap.Grew (h h' : Heap) : Prop where
  rest : h' = { h with strings := h'.strings }
  texts : ∀ i t, h.strings.get? i = some t → h'.strings.get? i = some t

namespace Heap

variable {h h' h'' : Heap} {s : StrId} {text : String}

theorem Grew.refl (h : Heap) : h.Grew h := ⟨rfl, fun _ _ => id⟩

theorem Grew.trans (hg : h.Grew h') (hg' : h'.Grew h'') : h.Grew h'' where
  rest := by
    rw [hg'.rest, hg.rest]
  texts i t ht := hg'.texts i t (hg.texts i t ht)

theorem grew_intern (h : Heap) (text : String) : h.Grew (h.intern text).2 where
  rest := rfl
  texts _ _ := Interner.get?_intern_of_some text

theorem Grew.findString? (hg : h.Grew h') (hs : h.findString? text = some s) :
    h'.findString? text = some s := by
  obtain ⟨i, hi, rfl⟩ := Option.map_eq_some_iff.1 hs
  have hfound := Interner.find?_eq_some_iff.2 (hg.texts i text (Interner.find?_eq_some_iff.1 hi))
  simp only [Heap.findString?, hfound, Option.map_some]

theorem findString?_intern (h : Heap) (text : String) :
    (h.intern text).2.findString? text = some (h.intern text).1 :=
  congrArg (Option.map _) (Interner.find?_intern_self h.strings text)

theorem intern_of_findString? (hs : h.findString? text = some s) : h.intern text = (s, h) := by
  obtain ⟨i, hi, rfl⟩ := Option.map_eq_some_iff.1 hs
  simp only [Heap.intern, Interner.intern_of_find? hi]

end Heap

end FastPath
