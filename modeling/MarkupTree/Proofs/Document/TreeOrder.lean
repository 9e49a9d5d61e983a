import MarkupTree.Proofs.Document.Siblings

/-!
# The tree of a node in document order

Going up from a node ends at the top of its tree. The top and the nodes below it, each before the
nodes below itself, are the whole tree in document order, and the nodes below any one of them stand
in that list in the same order.
-/

namespace MarkupTree.Document

variable {d : Document} {x y p c a : NodeId}

/-- The node above a node, or the node itself, that has no parent. -/
def top (d : Document) (x : NodeId) : NodeId := (d.ancestors x).getLastD x

/-- All nodes of the tree of a node in document order. -/
def wholeTree (d : Document) (x : NodeId) : List NodeId := d.top x :: d.descendants (d.top x)

theorem top_of_none (hp : d.parent? x = none) : d.top x = x := by
  rw [top, Linked.ancestors_of_none hp]
  rfl

namespace Linked

theorem top_of_some (h : d.Linked) (hp : d.parent? x = some p) : d.top x = d.top p := by
  rw [top, top, h.ancestors_of_some hp]
  cases d.ancestors p with
  | nil => rfl
  | cons q qs => rfl

theorem reaches_top (h : d.Linked) (x : NodeId) : Reaches d.parent? x (d.top x) := by
  induction x using h.up_induction with
  | step x ih =>
    cases hp : d.parent? x with
    | none => rw [top_of_none hp]; exact .refl
    | some p => rw [h.top_of_some hp]; exact .step hp (ih p hp)

theorem nodup_wholeTree (h : d.Linked) (x : NodeId) : (d.wholeTree x).Nodup :=
  h.nodup_cons_descendants _

/-- The tree below a node stands in the tree below any node above it, in the same order. -/
theorem sublist_of_reaches (h : d.Linked) (hx : Reaches d.parent? x a) :
    (x :: d.descendants x).Sublist (a :: d.descendants a) := by
  induction hx using Relation.ReflTransGen.head_induction_on with
  | refl => exact .refl _
  | @head x p hp _ ih =>
    refine List.Sublist.trans ?_ ih
    rw [h.descendants_eq_flatMap (x := p)]
    obtain ⟨s, t, hst⟩ := List.append_of_mem (h.mem_children.2 hp)
    rw [hst, List.flatMap_append, List.flatMap_cons]
    exact .cons p ((List.sublist_append_left _ _).trans (List.sublist_append_right _ _))

/-- The tree below a node, and behind it the trees below its following siblings. -/
theorem sublist_wholeTree (h : d.Linked) (x : NodeId) :
    ((x :: d.descendants x) ++ (d.following x).flatMap fun y => y :: d.descendants y).Sublist
      (d.wholeTree x) := by
  cases hp : d.parent? x with
  | none =>
    rw [following_of_none hp, List.flatMap_nil, List.append_nil, wholeTree, top_of_none hp]
  | some p =>
    have hup : (p :: d.descendants p).Sublist (d.wholeTree x) :=
      h.sublist_of_reaches (h.top_of_some hp ▸ h.reaches_top p)
    refine List.Sublist.trans ?_ hup
    rw [h.descendants_eq_flatMap (x := p), h.children_eq hp, List.flatMap_append,
      List.flatMap_cons]
    exact .cons p (List.sublist_append_right _ _)

end Linked

end MarkupTree.Document
