import MarkupTree.Document.Axes

/-!
# Trees

A tree is what a node and the nodes below it say, without handles: the value that signals, text
and equality depend on.
-/

namespace MarkupTree

inductive Tree where
  | document (children : List Tree)
  | element (name : String) (attributes : List Attribute) (children : List Tree)
  | text (text : String)

namespace Tree

def isBlankText : Tree → Bool
  | .text s => Text.isBlank s
  | _ => false

def ofContent (content : Content) (children : List Tree) : Tree :=
  match content with
  | .document => .document children
  | .element name attributes => .element name attributes children
  | .text s => .text s

mutual

/-- The text of the only leaf below a chain of only children, blank texts not counted. It is empty
if the chain ends in a node without children, and there is none if a node has several. -/
def leafText? : Tree → Option String
  | .text s => some s
  | .document children => soleLeafText? children
  | .element _ _ children => soleLeafText? children

/-- The leaf text of the only tree of a list that is not a blank text. -/
def soleLeafText? : List Tree → Option String
  | [] => some ""
  | t :: ts =>
    if t.isBlankText then soleLeafText? ts
    else if ts.all isBlankText then t.leafText?
    else none

end

end Tree

namespace Document

/-- The tree at a node, down to `fuel` levels. -/
def grow (d : Document) : Nat → NodeId → Option Tree
  | 0, _ => none
  | fuel + 1, id =>
    match d.get? id with
    | some node => some (Tree.ofContent node.content (node.children.filterMap (d.grow fuel)))
    | none => none

/-- The tree at a node. It has no more levels than the document has slots. -/
def tree? (d : Document) (id : NodeId) : Option Tree := d.grow d.slots.size id

def leafText? (d : Document) (id : NodeId) : Option String := (d.tree? id).bind Tree.leafText?

end Document

end MarkupTree
