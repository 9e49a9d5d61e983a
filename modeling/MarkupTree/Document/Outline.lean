import MarkupTree.Document.Axes

/-!
# Outlines

An outline shows how the nodes of a document hang together: a handle, and in brackets the outlines
of the nodes right below it.
-/

namespace MarkupTree.Document

/-- The outline of a node, down to `fuel` levels. -/
def outlineWithin (d : Document) : Nat → NodeId → String
  | 0, id => id.text
  | fuel + 1, id =>
    match d.children id with
    | [] => id.text
    | children => id.text ++ "(" ++ ",".intercalate (children.map (d.outlineWithin fuel)) ++ ")"

/-- The outlines of the nodes without a parent, by slot. -/
def outline (d : Document) : List String :=
  (d.handles.filter fun id => (d.parent? id).isNone).map (d.outlineWithin d.slots.size)

end MarkupTree.Document
