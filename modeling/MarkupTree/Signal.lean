import MarkupTree.Tree

/-!
# Signals

A signal is one event of a markup text: a start tag, an end tag, a text, or a part that no tree
holds. A tree is played back as the signals of a well-nested text.
-/

namespace MarkupTree

inductive Signal where
  | startTag (name : String) (attributes : List Attribute)
  | endTag (name : String)
  | text (text : String)
  | comment (text : String)
  | doctype (text : String)
  | processingInstruction (text : String)
deriving DecidableEq, Repr

namespace Tree

mutual

/-- An element stands between its tags; a document node is its children only. -/
def signals : Tree → List Signal
  | .document children => signalsOfList children
  | .element name attributes children =>
    .startTag name attributes :: (signalsOfList children ++ [.endTag name])
  | .text s => [.text s]

def signalsOfList : List Tree → List Signal
  | [] => []
  | t :: ts => t.signals ++ signalsOfList ts

end

end Tree

/-- The signals of a node and the nodes below it; a stale handle has none. -/
def Document.signals (d : Document) (id : NodeId) : List Signal :=
  match d.tree? id with
  | some tree => tree.signals
  | none => []

end MarkupTree
