import MarkupTree.Document.Axes

/-!
# Walks without a bound

A walk down keeps the nodes it still has to come to on a stack, a walk up keeps the next node. No
walk remembers where it has been or counts its steps, so it comes to an end only if the links of
the document let it.
-/

namespace MarkupTree.Document

/-- The next node of a walk down, and the stack it goes on from, the top first. -/
def nextBelow? (d : Document) : List NodeId → Option (NodeId × List NodeId)
  | [] => none
  | id :: stack => some (id, d.children id ++ stack)

/-- The next node of a walk up, and the node above it. -/
def nextAbove? (d : Document) : Option NodeId → Option (NodeId × Option NodeId)
  | none => none
  | some id => some (id, d.parent? id)

/-- From a state a walk comes to the items one by one and then ends. -/
inductive Yields {σ α : Type} (next? : σ → Option (α × σ)) : σ → List α → Prop
  | stop {s : σ} (h : next? s = none) : Yields next? s []
  | step {s s' : σ} {a : α} {as : List α} (h : next? s = some (a, s'))
      (rest : Yields next? s' as) : Yields next? s (a :: as)

end MarkupTree.Document
