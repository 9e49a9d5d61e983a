import MarkupTree.Document.Cursor
import MarkupTree.Proofs.Document.Outcome
import MarkupTree.Proofs.Document.Siblings
import MarkupTree.Proofs.Document.Steps
import MarkupTree.Proofs.Reachable

/-!
# How the axes fit together

Walks without a bound end and come to what the bounded ones give. What is below a node is what has
the node above it, and the siblings of a node stand around it at the place that its index tells.
-/

namespace MarkupTree.Document

variable {d : Document} {x n p : NodeId}

/-! ### Walks that end -/

theorem Yields.unique {σ α : Type} {next? : σ → Option (α × σ)} {s : σ} {as bs : List α}
    (h : Yields next? s as) (h' : Yields next? s bs) : as = bs := by
  induction h generalizing bs with
  | stop hs =>
    cases h' with
    | stop _ => rfl
    | step hs' _ => rw [hs] at hs'; cases hs'
  | step hs _ ih =>
    cases h' with
    | stop hs' => rw [hs] at hs'; cases hs'
    | step hs' hrest =>
      rw [hs, Option.some.injEq, Prod.mk.injEq] at hs'
      obtain ⟨rfl, rfl⟩ := hs'
      rw [ih hrest]

/-- The top of the stack is followed by all nodes below it, and only then by the rest. -/
theorem Linked.yields_cons (h : d.Linked) {stack as : List NodeId}
    (hstack : Yields d.nextBelow? stack as) (x : NodeId) :
    Yields d.nextBelow? (x :: stack) (x :: d.descendants x ++ as) := by
  induction x using h.down_induction generalizing stack as with
  | step x ih =>
    -- The children are put in front of the stack from the last one on.
    have hpart : ∀ cs, (∀ c ∈ cs, c ∈ d.children x) →
        Yields d.nextBelow? (cs ++ stack) ((cs.flatMap fun c => c :: d.descendants c) ++ as) := by
      intro cs hcs
      induction cs with
      | nil => exact hstack
      | cons c cs ihcs =>
        rw [List.flatMap_cons, List.append_assoc]
        exact ih c (hcs c List.mem_cons_self) (ihcs fun y hy => hcs y (List.mem_cons_of_mem c hy))
    refine .step rfl ?_
    rw [h.descendants_eq_flatMap]
    exact hpart _ fun _ hc => hc

theorem Linked.yields_descendants (h : d.Linked) (n : NodeId) :
    Yields d.nextBelow? (d.children n) (d.descendants n) := by
  rw [h.descendants_eq_flatMap]
  induction d.children n with
  | nil => exact .stop rfl
  | cons c cs ih => exact h.yields_cons ih c

theorem Linked.yields_ancestors (h : d.Linked) (n : NodeId) :
    Yields d.nextAbove? (d.parent? n) (d.ancestors n) := by
  induction n using h.up_induction with
  | step n ih =>
    cases hp : d.parent? n with
    | none => rw [ancestors_of_none hp]; exact .stop rfl
    | some p => rw [h.ancestors_of_some hp]; exact .step rfl (ih p hp)

/-! ### Up and down -/

theorem Linked.mem_descendants_iff (h : d.Linked) : x ∈ d.descendants n ↔ n ∈ d.ancestors x := by
  rw [h.mem_descendants, h.mem_ancestors]

theorem Linked.mem_ancestors_iff (h : d.Linked) :
    n ∈ d.ancestors x ↔ x ≠ n ∧ d.isAncestorOrSelf n x = true := by
  rw [h.mem_ancestors, h.isAncestorOrSelf_iff, reaches_iff]
  constructor
  · intro hpass
    exact ⟨fun e => h.forest.grounded.not_passes_self n (e ▸ hpass), .inr hpass⟩
  · rintro ⟨hne, heq | hpass⟩
    · exact absurd heq hne
    · exact hpass

/-! ### Around a node -/

theorem Linked.siblings_eq (h : d.Linked) (hp : d.parent? n = some p) :
    d.siblings n = d.preceding n ++ d.following n := by
  have hkeep : ∀ {l : List NodeId}, n ∉ l → l.filter (· != n) = l := by
    intro l hn
    exact List.filter_eq_self.2 fun y hy => bne_iff_ne.2 fun e => hn (e ▸ hy)
  have hbeside := h.not_mem_beside hp
  rw [List.mem_append, not_or] at hbeside
  rw [siblings, hp]
  show (d.children p).filter (· != n) = _
  rw [h.children_eq hp, List.filter_append, List.filter_cons_of_neg (by simp), hkeep hbeside.1,
    hkeep hbeside.2]

theorem elementPlace_eq (d : Document) (n : NodeId) :
    d.elementPlace n = ((d.preceding n).filter d.isElement).length + 1 := by
  rw [elementPlace, previousElements, previousSiblings, List.filter_reverse, List.length_reverse]

theorem indexOf_eq_ok {k : Nat} :
    d.indexOf n = .ok k ↔ d.contains n = true ∧ k = d.place n := by
  simp only [indexOf, bind_eq_ok, ok_eq_ok, ← exists_require, exists_and_right]

theorem indexOfElement_eq_ok {k : Nat} :
    d.indexOfElement n = .ok k ↔ d.isElement n = true ∧ k = d.elementPlace n := by
  rw [indexOfElement, bind_unit_eq_ok, requireKind_eq_ok, ← isElement_iff, ok_eq_ok,
    elementPlace_eq]

theorem entry?_append_cons {α : Type} (before : List α) (a : α) (after : List α) :
    entry? (before ++ a :: after) (before.length + 1) = some a := by
  show (before ++ a :: after)[before.length]? = some a
  simp

theorem Linked.child?_place (h : d.Linked) (hp : d.parent? n = some p) :
    d.child? p (d.place n) = some n := by
  rw [child?, h.children_eq hp]
  exact entry?_append_cons ..

theorem Linked.childElement?_elementPlace (h : d.Linked) (hp : d.parent? n = some p)
    (hn : d.isElement n = true) : d.childElement? p (d.elementPlace n) = some n := by
  rw [childElement?, childElements, h.children_eq hp, List.filter_append,
    List.filter_cons_of_pos hn, elementPlace_eq]
  exact entry?_append_cons ..

/-! ### All axes -/

/-- What the axes of a document tell about each other. -/
structure AxesAgree (d : Document) : Prop where
  /-- A walk down ends, and it comes to the descendants. -/
  below : ∀ n as, Yields d.nextBelow? (d.children n) as ↔ as = d.descendants n
  /-- A walk up ends, and it comes to the ancestors. -/
  above : ∀ n as, Yields d.nextAbove? (d.parent? n) as ↔ as = d.ancestors n
  preorder : ∀ n, d.descendants n = (d.children n).flatMap fun c => c :: d.descendants c
  nodup : ∀ n, (d.descendants n).Nodup
  below_iff_above : ∀ x n, x ∈ d.descendants n ↔ n ∈ d.ancestors x
  above_iff : ∀ x n, n ∈ d.ancestors x ↔ x ≠ n ∧ d.isAncestorOrSelf n x = true
  /-- Asking one parent after the other ends with the answer. -/
  asked : ∀ x n, InPlace.isAncestorOrSelf n x d = .ok (d.isAncestorOrSelf n x) d
  around : ∀ n p, d.parent? n = some p →
    (d.previousSiblings n).reverse ++ [n] ++ d.following n = d.children p
  others : ∀ n p, d.parent? n = some p →
    d.siblings n = (d.previousSiblings n).reverse ++ d.following n ∧ n ∉ d.siblings n
  child : ∀ n p, d.parent? n = some p → d.child? p (d.place n) = some n
  childElement : ∀ n p, d.parent? n = some p → d.isElement n = true →
    d.childElement? p (d.elementPlace n) = some n
  index : ∀ n k, d.indexOf n = .ok k ↔ d.contains n = true ∧ k = d.place n
  indexElement : ∀ n k, d.indexOfElement n = .ok k ↔ d.isElement n = true ∧ k = d.elementPlace n

theorem Linked.axesAgree (h : d.Linked) : d.AxesAgree where
  below n as :=
    ⟨fun has => has.unique (h.yields_descendants n), fun e => e ▸ h.yields_descendants n⟩
  above n as := ⟨fun has => has.unique (h.yields_ancestors n), fun e => e ▸ h.yields_ancestors n⟩
  preorder := h.descendants_eq_flatMap
  nodup := h.nodup_descendants
  below_iff_above _ _ := h.mem_descendants_iff
  above_iff _ _ := h.mem_ancestors_iff
  asked x n := InPlace.isAncestorOrSelf_eq h n x
  around n p hp := by
    rw [previousSiblings, List.reverse_reverse, List.append_assoc, h.children_eq hp]
    rfl
  others n p hp := by
    rw [previousSiblings, List.reverse_reverse, h.siblings_eq hp]
    exact ⟨rfl, h.not_mem_beside hp⟩
  child _ _ := h.child?_place
  childElement _ _ := h.childElement?_elementPlace
  index _ _ := indexOf_eq_ok
  indexElement _ _ := indexOfElement_eq_ok

/-- However a document was made, walks over it end and its axes agree. -/
theorem axesAgree_of_reachable (h : Reachable d) : d.AxesAgree :=
  (wellFormed_of_reachable h).linked.axesAgree

/-- A text below an element that has no place. -/
theorem axesAgree_of_append :
    ((Command.append ⟨1, 0⟩ ⟨2, 0⟩).after
      ((new.createElement "p" []).1.createText "a").1).AxesAgree :=
  axesAgree_of_reachable (.edit (.createText (.createElement .new _ _) _) _)

end MarkupTree.Document
