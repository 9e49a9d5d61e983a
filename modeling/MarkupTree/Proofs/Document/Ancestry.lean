import MarkupTree.Proofs.Document.Linked

/-!
# Ancestors and descendants

In a document with its links in order no way up is as long as the number of slots. So the bounded
walks go all the way: `ancestors` are the nodes that going up passes, `descendants` are the nodes
from which going up passes a node, and both obey the equations without a bound.
-/

namespace MarkupTree.Document

variable {d : Document} {x y a p : NodeId}

theorem climb_of_none (h : d.parent? x = none) (n : Nat) : d.climb n x = [] := by
  cases n <;> simp [climb, h]

theorem climb_of_some (h : d.parent? x = some p) (n : Nat) :
    d.climb (n + 1) x = p :: d.climb n p := by simp [climb, h]

/-- A climb that ends before its bound does not depend on it. -/
theorem climb_succ_of_length : ∀ {n : Nat} {x : NodeId}, (d.climb (n + 1) x).length ≤ n →
    d.climb (n + 1) x = d.climb n x
  | n, x, h => by
    cases hp : d.parent? x with
    | none => rw [climb_of_none hp, climb_of_none hp]
    | some p =>
      rw [climb_of_some hp] at h
      cases n with
      | zero => simp at h
      | succ n =>
        rw [climb_of_some hp, climb_of_some hp,
          climb_succ_of_length (by simpa using h)]

theorem passes_of_mem_climb : ∀ {n : Nat} {x : NodeId}, a ∈ d.climb n x → Passes d.parent? x a
  | 0, _, h => absurd h List.not_mem_nil
  | n + 1, x, h => by
    cases hp : d.parent? x with
    | none => rw [climb_of_none hp] at h; cases h
    | some p =>
      rw [climb_of_some hp, List.mem_cons] at h
      rcases h with rfl | h
      · exact passes_iff.2 ⟨a, hp, .refl⟩
      · exact passes_iff.2 ⟨p, hp, (passes_of_mem_climb h).reaches⟩

namespace Linked

theorem contains_of_passes (h : d.Linked) (ha : Passes d.parent? x a) : d.contains a = true := by
  induction ha with
  | single hp => exact h.contains_parent hp
  | tail _ hp _ => exact h.contains_parent hp

theorem nodup_climb (h : d.Linked) : ∀ (n : Nat) (x : NodeId), (x :: d.climb n x).Nodup
  | 0, x => List.nodup_singleton x
  | n + 1, x => by
    refine List.nodup_cons.2
      ⟨fun hx => h.forest.grounded.not_passes_self x (passes_of_mem_climb hx), ?_⟩
    cases hp : d.parent? x with
    | none => rw [climb_of_none hp]; exact .nil
    | some p => rw [climb_of_some hp]; exact h.nodup_climb n p

theorem length_climb_lt (h : d.Linked) (hx : d.contains x = true) (n : Nat) :
    (d.climb n x).length < d.slots.size := by
  have := length_le_size (h.nodup_climb n x) fun y hy => by
    rcases List.mem_cons.1 hy with hyx | hy
    · rw [hyx]; exact hx
    · exact h.contains_of_passes (passes_of_mem_climb hy)
  rw [List.length_cons] at this
  omega

theorem length_ancestors_lt (h : d.Linked) (hx : d.contains x = true) :
    (d.ancestors x).length < d.slots.size := h.length_climb_lt hx _

theorem ancestors_of_none (hx : d.parent? x = none) : d.ancestors x = [] := climb_of_none hx _

theorem ancestors_of_some (h : d.Linked) (hp : d.parent? x = some p) :
    d.ancestors x = p :: d.ancestors p := by
  have hlt := h.length_climb_lt (contains_of_parent? hp) (d.slots.size + 1)
  have hstable : d.climb (d.slots.size + 1) x = d.climb d.slots.size x :=
    climb_succ_of_length (by omega)
  rw [ancestors, ← hstable, climb_of_some hp, ancestors]

theorem mem_ancestors (h : d.Linked) : a ∈ d.ancestors x ↔ Passes d.parent? x a := by
  refine ⟨passes_of_mem_climb, fun ha => ?_⟩
  induction ha using Relation.TransGen.head_induction_on with
  | single hp => rw [h.ancestors_of_some hp]; exact List.mem_cons_self
  | head hp _ ih => rw [h.ancestors_of_some hp]; exact List.mem_cons_of_mem _ ih

theorem isAncestorOrSelf_iff (h : d.Linked) :
    d.isAncestorOrSelf a x = true ↔ Reaches d.parent? x a := by
  rw [isAncestorOrSelf, reaches_iff, Bool.or_eq_true, beq_iff_eq, List.contains_iff_mem,
    h.mem_ancestors, eq_comm]

theorem length_ancestors_of_some (h : d.Linked) (hp : d.parent? x = some p) :
    (d.ancestors x).length = (d.ancestors p).length + 1 := by
  rw [h.ancestors_of_some hp, List.length_cons]

/-! ### Downwards -/

/-- Every way down comes to an end. -/
theorem wellFounded_children (h : d.Linked) : WellFounded fun c x => c ∈ d.children x := by
  refine Subrelation.wf (fun {c x} hc => ?_)
    (measure fun x => d.slots.size - (d.ancestors x).length).wf
  have hlt := h.length_ancestors_lt (h.contains_child hc)
  have heq := h.length_ancestors_of_some (h.mem_children.1 hc)
  show d.slots.size - (d.ancestors c).length < d.slots.size - (d.ancestors x).length
  omega

/-- What holds of a node if it holds of its children holds of all nodes. -/
theorem down_induction (h : d.Linked) {motive : NodeId → Prop}
    (step : ∀ x, (∀ c ∈ d.children x, motive c) → motive x) (x : NodeId) : motive x :=
  h.wellFounded_children.induction x step

/-- What holds of a node if it holds of its parent holds of all nodes. -/
theorem up_induction (h : d.Linked) {motive : NodeId → Prop}
    (step : ∀ x, (∀ p, d.parent? x = some p → motive p) → motive x) (x : NodeId) : motive x :=
  h.forest.grounded.induction x step

/-- A walk down whose bound covers the slots that are not above it does not depend on the bound. -/
theorem descend_succ (h : d.Linked) : ∀ (n : Nat) (x : NodeId),
    d.slots.size ≤ n + (d.ancestors x).length → d.descend (n + 1) x = d.descend n x
  | 0, x, hn => by
    have hx : ¬ d.contains x = true := fun hx => by have := h.length_ancestors_lt hx; omega
    simp [descend, children_of_stale hx]
  | n + 1, x, hn => by
    rw [descend, descend]
    refine List.flatMap_congr fun c hc => ?_
    have := h.length_ancestors_of_some (h.mem_children.1 hc)
    rw [h.descend_succ n c (by omega)]

theorem descendants_eq_flatMap (h : d.Linked) (x : NodeId) :
    d.descendants x = (d.children x).flatMap fun c => c :: d.descendants c := by
  simp only [descendants_eq]
  rw [← h.descend_succ _ x (by omega), descend]

theorem mem_descendants (h : d.Linked) : y ∈ d.descendants x ↔ Passes d.parent? y x := by
  constructor
  · induction x using h.down_induction with
    | step x ih =>
      intro hy
      rw [h.descendants_eq_flatMap, List.mem_flatMap] at hy
      obtain ⟨c, hc, hy⟩ := hy
      have hcx : Passes d.parent? c x := .single (h.mem_children.1 hc)
      rcases List.mem_cons.1 hy with rfl | hy
      · exact hcx
      · exact Relation.TransGen.trans (ih c hc hy) hcx
  · intro hy
    induction hy with
    | single hp =>
      rw [h.descendants_eq_flatMap, List.mem_flatMap]
      exact ⟨y, h.mem_children.2 hp, List.mem_cons_self⟩
    | @tail b x _ hp ih =>
      rw [h.descendants_eq_flatMap, List.mem_flatMap]
      exact ⟨b, h.mem_children.2 hp, List.mem_cons_of_mem _ ih⟩

theorem mem_cons_descendants (h : d.Linked) :
    y ∈ x :: d.descendants x ↔ Reaches d.parent? y x := by
  rw [List.mem_cons, h.mem_descendants, reaches_iff]

theorem contains_of_mem_descendants (h : d.Linked) (hy : y ∈ d.descendants x) :
    d.contains y = true := by
  obtain ⟨p, hp, -⟩ := passes_iff.1 (h.mem_descendants.1 hy)
  exact contains_of_parent? hp

/-- No node lies below two children of one node. -/
theorem eq_of_reaches_children (h : d.Linked) {c c' : NodeId} (hc : d.parent? c = some x)
    (hc' : d.parent? c' = some x) (hy : Reaches d.parent? y c) (hy' : Reaches d.parent? y c') :
    c = c' := by
  have apart : ∀ {a b}, d.parent? a = some x → d.parent? b = some x → Reaches d.parent? a b →
      a = b := by
    intro a b ha hb hab
    rcases hab.cases with rfl | ⟨q, hq, hqb⟩
    · rfl
    · rw [ha, Option.some.injEq] at hq
      subst hq
      exact absurd hqb (h.forest.grounded.not_reaches_of_passes (.single hb))
  rcases hy.total hy' with hcc | hcc
  · exact apart hc hc' hcc
  · exact (apart hc' hc hcc).symm

theorem nodup_descendants (h : d.Linked) (x : NodeId) : (d.descendants x).Nodup := by
  induction x using h.down_induction with
  | step x ih =>
    rw [h.descendants_eq_flatMap, List.nodup_flatMap]
    refine ⟨fun c hc => List.nodup_cons.2 ⟨fun hcc => ?_, ih c hc⟩, ?_⟩
    · exact h.forest.grounded.not_passes_self c (h.mem_descendants.1 hcc)
    · refine (h.forest.nodup x).imp_of_mem fun {c c'} hc hc' hne y hy hy' => hne ?_
      exact h.eq_of_reaches_children (h.mem_children.1 hc) (h.mem_children.1 hc')
        (h.mem_cons_descendants.1 hy) (h.mem_cons_descendants.1 hy')

theorem nodup_cons_descendants (h : d.Linked) (x : NodeId) : (x :: d.descendants x).Nodup :=
  List.nodup_cons.2 ⟨fun hx => h.forest.grounded.not_passes_self x (h.mem_descendants.1 hx),
    h.nodup_descendants x⟩

/-- Where nothing at or below a node has other children, the same nodes are below it. -/
theorem descendants_congr {e : Document} (h : d.Linked) (h' : e.Linked)
    (hsame : ∀ y ∈ x :: d.descendants x, e.children y = d.children y) :
    e.descendants x = d.descendants x := by
  induction x using h.down_induction with
  | step x ih =>
    rw [h.descendants_eq_flatMap] at hsame ⊢
    rw [h'.descendants_eq_flatMap, hsame x List.mem_cons_self]
    refine List.flatMap_congr fun c hc => ?_
    rw [ih c hc fun y hy => hsame y (List.mem_cons_of_mem x (List.mem_flatMap.2 ⟨c, hc, hy⟩))]

end Linked

end MarkupTree.Document
