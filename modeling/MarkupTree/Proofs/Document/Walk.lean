import MarkupTree.Proofs.Document.Siblings
import MarkupTree.Selector.Match
import MarkupTree.Sequence.Items
import MarkupTree.Sequence.Walk

/-!
# Where walks come to

Along every axis, by every step and by every selection, walks come to live nodes only.
-/

namespace MarkupTree.Document

variable {d : Document} {x y : NodeId}

namespace Linked

variable (h : d.Linked)
include h

theorem contains_of_mem_along {axis : Axis} (hy : y ∈ d.along x axis) : d.contains y = true := by
  cases axis with
  | children => exact h.contains_child hy
  | descendants => exact h.contains_of_mem_descendants hy
  | ancestors => exact contains_of_isElement (List.mem_filter.1 hy).2
  | siblings =>
    simp only [along, siblings] at hy
    split at hy
    · exact h.contains_child (List.mem_filter.1 hy).1
    · cases hy
  | nextSiblings =>
    obtain ⟨p, -, hp⟩ := h.parent?_of_later (h.mem_following.1 hy)
    exact contains_of_parent? hp
  | previousSiblings =>
    obtain ⟨p, hp, -⟩ := h.parent?_of_later (h.mem_preceding.1 (List.mem_reverse.1 hy))
    exact contains_of_parent? hp

/-- A step of a walk leads from live nodes to live nodes. -/
theorem contains_of_mem_stage {s : Sequence Empty NodeId}
    (hs : ∀ y ∈ s.items, d.contains y = true) (step : WalkStep) :
    ∀ y ∈ ((d.stage step).apply s).2.items, d.contains y = true := by
  intro y hy
  cases step with
  | elements | withTag | withTags | texts =>
    simp only [stage, Sequence.Stage.apply, Sequence.items_filter, List.mem_filter] at hy
    exact hs y hy.1
  | parents =>
    simp only [stage, Sequence.Stage.apply, Sequence.items_filterMap, List.mem_filterMap] at hy
    obtain ⟨z, -, hz⟩ := hy
    exact h.contains_parent hz
  | children =>
    simp only [stage, Sequence.Stage.apply, Sequence.items_flatMap, Sequence.items_ofList,
      List.mem_flatMap] at hy
    obtain ⟨z, -, hz⟩ := hy
    exact h.contains_child hz
  | descendants =>
    simp only [stage, Sequence.Stage.apply, Sequence.items_flatMap, Sequence.items_ofList,
      List.mem_flatMap] at hy
    obtain ⟨z, -, hz⟩ := hy
    exact h.contains_of_mem_descendants hz
  | reverse =>
    simp only [stage, Sequence.Stage.apply, Sequence.toList_eq, Sequence.items_ofList,
      List.mem_reverse] at hy
    exact hs y hy

theorem contains_of_mem_through (steps : List WalkStep) {s : Sequence Empty NodeId}
    (hs : ∀ y ∈ s.items, d.contains y = true) :
    ∀ y ∈ (s.through (steps.map d.stage)).2.items, d.contains y = true := by
  induction steps generalizing s with
  | nil => exact hs
  | cons step steps ih => exact ih (h.contains_of_mem_stage hs step)

theorem contains_of_mem_walk {axis : Axis} {steps : List WalkStep}
    (hy : y ∈ (d.walk x axis steps).items) : d.contains y = true := by
  refine h.contains_of_mem_through steps (fun z hz => ?_) y hy
  rw [Sequence.items_ofList] at hz
  exact h.contains_of_mem_along hz

end Linked

theorem contains_of_mem_select {alternatives : List Chain}
    (hy : y ∈ d.select alternatives x) : d.contains y = true := by
  unfold select at hy
  split at hy
  · exact contains_of_isElement (List.mem_filter.1 (List.mem_filter.1 hy).1).2
  · cases hy

end MarkupTree.Document
