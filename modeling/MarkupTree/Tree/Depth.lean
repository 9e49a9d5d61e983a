import MarkupTree.Tree

/-!
# Depth of nesting

The depth of a tree is the largest number of elements one in another. Texts and document nodes do
not count.
-/

namespace MarkupTree

namespace Tree

mutual

def elementDepth : Tree → Nat
  | .document ts => depthOfList ts
  | .element _ _ ts => depthOfList ts + 1
  | .text _ => 0

def depthOfList : List Tree → Nat
  | [] => 0
  | t :: ts => max t.elementDepth (depthOfList ts)

end

theorem depthOfList_singleton (t : Tree) : depthOfList [t] = t.elementDepth := Nat.max_zero _

theorem depthOfList_append (ts us : List Tree) :
    depthOfList (ts ++ us) = max (depthOfList ts) (depthOfList us) := by
  induction ts with
  | nil => exact (Nat.zero_max _).symm
  | cons t ts ih => rw [List.cons_append, depthOfList, depthOfList, ih, Nat.max_assoc]

end Tree

/-- The depth of the tree at a node; a stale handle has none. -/
def Document.elementDepth (d : Document) (id : NodeId) : Nat :=
  match d.tree? id with
  | some tree => tree.elementDepth
  | none => 0

end MarkupTree
