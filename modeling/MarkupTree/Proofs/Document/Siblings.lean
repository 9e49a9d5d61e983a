import MarkupTree.Proofs.Document.Ancestry

/-!
# Siblings

A node with a parent stands at one place among the children of the parent. What stands before it
and after it there are its preceding and its following siblings, and the nearest element on each
side is its previous and its next element.
-/

namespace MarkupTree.Document

variable {d : Document} {x y z p : NodeId} {before after : List NodeId}

/-- `y` stands somewhere behind `x` among the children of one node. -/
def Later (d : Document) (x y : NodeId) : Prop :=
  ∃ p before between after, d.children p = before ++ x :: (between ++ y :: after)

/-- `y` is the first element that stands behind `x` among the children of one node. -/
def Next (d : Document) (x y : NodeId) : Prop :=
  d.isElement y = true ∧ ∃ p before between after,
    d.children p = before ++ x :: (between ++ y :: after) ∧
      ∀ z ∈ between, ¬ d.isElement z = true

theorem Next.later (h : d.Next x y) : d.Later x y := by
  obtain ⟨-, p, before, between, after, hsplit, -⟩ := h
  exact ⟨p, before, between, after, hsplit⟩

theorem preceding_of_none (hp : d.parent? x = none) : d.preceding x = [] := by
  simp [preceding, position?, hp]

theorem following_of_none (hp : d.parent? x = none) : d.following x = [] := by
  simp [following, position?, hp]

/-- The first element behind a place is the first element found going on from there. -/
theorem find?_isElement {l : List NodeId} : l.find? d.isElement = some y ↔
    d.isElement y = true ∧ ∃ s t, l = s ++ y :: t ∧ ∀ z ∈ s, ¬ d.isElement z = true := by
  rw [List.find?_eq_some_iff_append]
  simp

namespace Linked

theorem children_eq (h : d.Linked) (hp : d.parent? x = some p) :
    d.children p = d.preceding x ++ x :: d.following x := by
  have hpos := position?_eq h.forest x
  rw [hp] at hpos
  exact children_eq_of_position? hpos

theorem not_mem_beside (h : d.Linked) (hp : d.parent? x = some p) :
    x ∉ d.preceding x ++ d.following x := by
  have hnd := h.forest.nodup p
  rw [h.children_eq hp, List.nodup_middle, List.nodup_cons] at hnd
  exact hnd.1

theorem children_eq_iff (h : d.Linked) : d.children p = before ++ x :: after ↔
    d.parent? x = some p ∧ d.preceding x = before ∧ d.following x = after := by
  constructor
  · intro hsplit
    have hp : d.parent? x = some p := by
      rw [← h.mem_children, hsplit]
      exact List.mem_append_right before List.mem_cons_self
    have hnd := List.nodup_middle.1 (hsplit ▸ h.forest.nodup p)
    obtain ⟨hx, -⟩ := List.nodup_cons.1 hnd
    rw [List.mem_append, not_or] at hx
    rw [h.children_eq hp] at hsplit
    obtain ⟨hbefore, -, hafter⟩ := (List.append_cons_inj_of_notMem hx.1 hx.2).1 hsplit.symm
    exact ⟨hp, hbefore.symm, hafter.symm⟩
  · rintro ⟨hp, rfl, rfl⟩
    exact h.children_eq hp

theorem mem_following (h : d.Linked) : y ∈ d.following x ↔ d.Later x y := by
  constructor
  · intro hy
    cases hp : d.parent? x with
    | none => rw [following_of_none hp] at hy; cases hy
    | some p =>
      obtain ⟨s, t, hst⟩ := List.append_of_mem hy
      exact ⟨p, d.preceding x, s, t, hst ▸ h.children_eq hp⟩
  · rintro ⟨p, before, between, after, hsplit⟩
    obtain ⟨-, -, hx⟩ := h.children_eq_iff.1 hsplit
    rw [hx]
    exact List.mem_append_right _ List.mem_cons_self

theorem mem_preceding (h : d.Linked) : x ∈ d.preceding y ↔ d.Later x y := by
  constructor
  · intro hx
    cases hp : d.parent? y with
    | none => rw [preceding_of_none hp] at hx; cases hx
    | some p =>
      obtain ⟨s, t, hst⟩ := List.append_of_mem hx
      have hsplit := h.children_eq hp
      rw [hst, List.append_assoc, List.cons_append] at hsplit
      exact ⟨p, s, t, d.following y, hsplit⟩
  · rintro ⟨p, before, between, after, hsplit⟩
    rw [← List.cons_append, ← List.append_assoc] at hsplit
    obtain ⟨-, hy, -⟩ := h.children_eq_iff.1 hsplit
    rw [hy]
    exact List.mem_append_right _ List.mem_cons_self

theorem parent?_of_later (h : d.Linked) (hxy : d.Later x y) :
    ∃ p, d.parent? x = some p ∧ d.parent? y = some p := by
  obtain ⟨p, before, between, after, hsplit⟩ := hxy
  rw [← List.cons_append, ← List.append_assoc] at hsplit
  have hx : x ∈ d.children p := by rw [hsplit]; simp
  have hy : y ∈ d.children p := by rw [hsplit]; simp
  exact ⟨p, h.mem_children.1 hx, h.mem_children.1 hy⟩

/-- Siblings have the same nodes above them. -/
theorem passes_iff_of_later (h : d.Linked) (hxy : d.Later x y) {a : NodeId} :
    Passes d.parent? x a ↔ Passes d.parent? y a := by
  obtain ⟨p, hx, hy⟩ := h.parent?_of_later hxy
  rw [passes_iff, passes_iff, hx, hy]

theorem later_trans (h : d.Linked) (hxy : d.Later x y) (hyz : d.Later y z) : d.Later x z := by
  obtain ⟨p, before, between, after, hsplit⟩ := hxy
  have hz := h.mem_following.2 hyz
  have hsplit' := hsplit
  rw [← List.cons_append, ← List.append_assoc] at hsplit'
  obtain ⟨-, -, hy⟩ := h.children_eq_iff.1 hsplit'
  obtain ⟨s, t, hst⟩ := List.append_of_mem hz
  refine ⟨p, before, between ++ y :: s, t, ?_⟩
  rw [hsplit, ← hy, hst]
  simp

theorem nextElement?_eq_some (h : d.Linked) : d.nextElement? x = some y ↔ d.Next x y := by
  rw [nextElement?, followingElements, List.head?_filter, find?_isElement]
  refine and_congr_right fun _ => ?_
  constructor
  · rintro ⟨s, t, hst, hs⟩
    cases hp : d.parent? x with
    | none => rw [following_of_none hp] at hst; simp at hst
    | some p => exact ⟨p, d.preceding x, s, t, hst ▸ h.children_eq hp, hs⟩
  · rintro ⟨p, before, between, after, hsplit, hbetween⟩
    obtain ⟨-, -, hx⟩ := h.children_eq_iff.1 hsplit
    exact ⟨between, after, hx, hbetween⟩

theorem previousElement?_eq_some (h : d.Linked) (hy : d.isElement y = true) :
    d.previousElement? y = some x ↔ d.isElement x = true ∧ d.Next x y := by
  rw [previousElement?, previousElements, List.head?_filter, find?_isElement, previousSiblings]
  refine and_congr_right fun _ => ?_
  constructor
  · rintro ⟨s, t, hst, hs⟩
    have hpre : d.preceding y = t.reverse ++ x :: s.reverse := by
      rw [← List.reverse_reverse (d.preceding y), hst]
      simp
    cases hp : d.parent? y with
    | none => rw [preceding_of_none hp] at hpre; simp at hpre
    | some p =>
      have hsplit := h.children_eq hp
      rw [hpre, List.append_assoc, List.cons_append] at hsplit
      exact ⟨hy, p, t.reverse, s.reverse, d.following y, hsplit,
        fun z hz => hs z (List.mem_reverse.1 hz)⟩
  · rintro ⟨-, p, before, between, after, hsplit, hbetween⟩
    rw [← List.cons_append, ← List.append_assoc] at hsplit
    obtain ⟨-, hpre, -⟩ := h.children_eq_iff.1 hsplit
    refine ⟨between.reverse, before.reverse, ?_, fun z hz => hbetween z (List.mem_reverse.1 hz)⟩
    rw [hpre]
    simp

end Linked

end MarkupTree.Document
