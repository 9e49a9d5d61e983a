import MarkupTree.Builder
import MarkupTree.Proofs.Document.WellFormed

/-!
# Builders keep documents well-formed

The open elements are elements of the document, so a new node always has a place.
-/

namespace MarkupTree

open Document

namespace Builder

variable {b b' : Builder}

structure Sound (b : Builder) : Prop where
  wellFormed : b.document.WellFormed
  opened : ∀ id ∈ b.opened, b.document.isElement id = true

theorem sound_new (config : Config) : (new config).Sound :=
  ⟨wellFormed_new, fun _ h => absurd h List.not_mem_nil⟩

namespace Sound

theorem contains_current (h : b.Sound) : b.document.contains b.current = true := by
  rw [current]
  cases ho : b.opened with
  | nil => exact h.wellFormed.contains_root
  | cons id ids => exact contains_of_isElement (h.opened id (by rw [ho]; exact List.mem_cons_self))

theorem not_isText_current (h : b.Sound) : ¬ b.document.isText b.current = true := by
  rw [current]
  cases ho : b.opened with
  | nil =>
    refine not_isText_of_isDocument ?_
    rw [isDocument_iff, kind?_eq_some_document]
    exact h.wellFormed.root
  | cons id ids =>
    exact not_isText_of_isElement (h.opened id (by rw [ho]; exact List.mem_cons_self))

/-- A new node is put behind the children of the current one. -/
theorem grow (h : b.Sound) {c : Content} (hc : c.kind ≠ .document) (hs : c.Spelled) :
    ((b.document.alloc c).1.linkLast b.current (b.document.alloc c).2).WellFormed ∧
      ∀ x k, b.document.kind? x = some k →
        ((b.document.alloc c).1.linkLast b.current (b.document.alloc c).2).kind? x = some k := by
  have hw := h.wellFormed
  refine ⟨(hw.alloc hs).linkLast (hw.insertable_alloc h.contains_current h.not_isText_current hc)
    (hw.parent?_new c), fun x k hx => ?_⟩
  have hxn : x ≠ (b.document.alloc c).2 := fun e =>
    hw.stored.not_contains_alloc c (e ▸ contains_of_kind? hx)
  rw [(Relinked.linkLast _ b.current _).kind?, kind?_alloc_of_ne hw.stored c hxn]
  exact hx

theorem close (h : b.Sound) {name : String} (hb : b.close name = .ok b') : b'.Sound := by
  unfold Builder.close at hb
  split at hb
  · split at hb
    · cases hb
    · cases hb; exact h
  · split at hb
    · cases hb
    · cases hb
      exact ⟨h.wellFormed, fun id hid => h.opened id (List.mem_of_mem_drop hid)⟩

theorem push (h : b.Sound) {s : Signal} (hb : b.push s = .ok b') : b'.Sound := by
  cases s with
  | startTag name as =>
    rw [Builder.push] at hb
    split at hb
    · cases hb
    · cases hb
      obtain ⟨hwf, hkind⟩ := h.grow (c := .element (Text.lower name) (Attribute.keepFirst as))
        (by simp [Content.kind]) (spelled_element name as)
      refine ⟨hwf, fun id hid => ?_⟩
      rcases List.mem_cons.1 hid with rfl | hid
      · rw [isElement_iff]
        show ((b.document.alloc _).1.linkLast _ _).kind? (b.document.alloc _).2 = _
        rw [(Relinked.linkLast _ b.current _).kind?, kind?, content?_alloc h.wellFormed.stored,
          if_pos rfl]
        rfl
      · exact isElement_iff.2 (hkind id _ (isElement_iff.1 (h.opened id hid)))
  | endTag name => exact h.close hb
  | text s =>
    rw [Builder.push] at hb
    split at hb
    · cases hb; exact h
    · cases hb
      obtain ⟨hwf, hkind⟩ := h.grow (c := .text s) (by simp [Content.kind]) trivial
      exact ⟨hwf, fun id hid => isElement_iff.2 (hkind id _ (isElement_iff.1 (h.opened id hid)))⟩
  | comment => cases hb; exact h
  | doctype => cases hb; exact h
  | processingInstruction => cases hb; exact h

theorem foldlM : ∀ {signals : List Signal} {b : Builder}, b.Sound →
    signals.foldlM Builder.push b = .ok b' → b'.Sound
  | [], _, h, hb => by cases hb; exact h
  | s :: signals, b, h, hb => by
    rw [List.foldlM_cons] at hb
    cases hs : b.push s with
    | error => rw [hs] at hb; cases hb
    | ok c =>
      rw [hs] at hb
      exact (h.push hs).foldlM hb

end Sound

end Builder

/-- A document that signals describe is well-formed. -/
theorem wellFormed_ofSignals {config : Config} {signals : List Signal} {d : Document}
    (h : ofSignals config signals = .ok d) : d.WellFormed := by
  unfold ofSignals at h
  cases hb : signals.foldlM Builder.push (Builder.new config) with
  | error => rw [hb] at h; cases h
  | ok b =>
    rw [hb] at h
    have hs := (Builder.sound_new config).foldlM hb
    have hf : b.finish = .ok d := h
    unfold Builder.finish at hf
    split at hf
    · cases hf
    · cases hf; exact hs.wellFormed

end MarkupTree
