import MarkupTree.Document.Axes
import MarkupTree.Text.Quoted

/-!
# Texts and tokens of nodes

What can be read off a node: the texts at and below it, the tokens of its class attribute, and a
short description.
-/

namespace MarkupTree

/-- A question was asked about a handle that names nothing. -/
inductive ViewError where
  | stale (id : NodeId)
deriving DecidableEq, Repr

def ViewError.message : ViewError → String
  | .stale id => s!"stale node handle {id}"

namespace Document

/-- The node that a question is about. -/
def view (d : Document) (id : NodeId) : Except ViewError Node :=
  match d.get? id with
  | some node => .ok node
  | none => .error (.stale id)

/-- The texts of the text nodes at and below a node in document order. -/
def texts (d : Document) (id : NodeId) : List String :=
  match d.text? id with
  | some s => [s]
  | none => (d.descendants id).filterMap d.text?

/-- The texts, trimmed, without those that are blank. -/
def trimmedTexts (d : Document) (id : NodeId) : List String :=
  ((d.texts id).map Text.trim).filter (!·.isEmpty)

def textContent (d : Document) (id : NodeId) : String := String.join (d.texts id)

/-- The tokens of the class attribute, each where it occurs first. -/
def classes (d : Document) (id : NodeId) : List String :=
  match d.attribute? id "class" with
  | some value => Text.uniqueTokens value
  | none => []

def hasClass (d : Document) (id : NodeId) (token : String) : Bool :=
  (d.attribute? id "class").any (Text.hasToken · token)

/-- The kind and handle of a node, with the name of an element or the quoted text of a text. -/
def describe (d : Document) (id : NodeId) : Except ViewError String := do
  let node ← d.view id
  match node.content with
  | .document => return s!"Document({id})"
  | .element name _ => return s!"Element({id}, <{name}>)"
  | .text s => return s!"Text({id}, " ++ Text.quote s ++ ")"

end Document

end MarkupTree
