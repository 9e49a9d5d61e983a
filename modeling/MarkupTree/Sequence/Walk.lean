import MarkupTree.Document.Axes
import MarkupTree.Sequence

/-!
# Walks

A walk goes lazily through the nodes along an axis, and from there through further steps.
-/

namespace MarkupTree

inductive Axis where
  | children
  | descendants
  /-- The ancestors that are elements, nearest first. -/
  | ancestors
  | siblings
  | nextSiblings
  /-- The siblings before a node, nearest first. -/
  | previousSiblings
deriving DecidableEq, Repr

/-- Where a walk goes from the nodes it comes to. -/
inductive WalkStep where
  | elements
  | withTag (name : String)
  | withTags (names : List String)
  | texts
  | parents
  | children
  | descendants
  | reverse
deriving DecidableEq, Repr

namespace Document

def along (d : Document) (id : NodeId) : Axis → List NodeId
  | .children => d.children id
  | .descendants => d.descendants id
  | .ancestors => d.ancestorElements id
  | .siblings => d.siblings id
  | .nextSiblings => d.following id
  | .previousSiblings => d.previousSiblings id

/-- The node is an element with one of the given names, which are put in lower case. -/
def isNamed (d : Document) (names : List String) (id : NodeId) : Bool :=
  (d.name? id).any (names.map Text.lower).contains

/-- A step of a walk as a step of a sequence, which shows no events. -/
def stage (d : Document) : WalkStep → Sequence.Stage Empty NodeId
  | .elements => .filter d.isElement
  | .withTag name => .filter (d.isNamed [name])
  | .withTags names => .filter (d.isNamed names)
  | .texts => .filter d.isText
  | .parents => .filterMap d.parent?
  | .children => .flatMap fun id => .ofList (d.children id)
  | .descendants => .flatMap fun id => .ofList (d.descendants id)
  | .reverse => .reverse

/-- The nodes that a walk from a node comes to. -/
def walk (d : Document) (id : NodeId) (axis : Axis) (steps : List WalkStep) :
    Sequence Empty NodeId :=
  ((Sequence.ofList (d.along id axis)).through (steps.map d.stage)).2

end Document

end MarkupTree
