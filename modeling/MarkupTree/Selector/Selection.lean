import MarkupTree.Selector.Match
import MarkupTree.Sequence.Items

/-!
# Lazy selection

A selection can be pulled element by element. What lies behind the last element that was pulled is
not looked at, and before the first pull nothing is.
-/

namespace MarkupTree

/-- The elements that match an alternative relative to a node, looked for when they are pulled. -/
def Document.selection (d : Document) (alternatives : List Chain) (context : NodeId) :
    Sequence Empty NodeId :=
  if d.contains context then
    ((Sequence.ofList (d.candidates alternatives context)).filter d.isElement).filter fun e =>
      alternatives.any (·.accepts d context e)
  else .done

def Selector.selection (s : Selector) (d : Document) (context : NodeId) : Sequence Empty NodeId :=
  d.selection s.alternatives context

theorem Document.items_selection (d : Document) (alternatives : List Chain) (context : NodeId) :
    (d.selection alternatives context).items = d.select alternatives context := by
  unfold selection select
  split <;> simp [Sequence.items]

end MarkupTree
