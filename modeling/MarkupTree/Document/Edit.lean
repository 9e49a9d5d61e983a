import MarkupTree.Document.EditError
import MarkupTree.Document.Links

/-!
# Edits of the tree

Every edit first checks what it needs and then runs to the end. `delete` and `replace` reclaim what
they take out; the other edits leave nodes that lose their place detached and alive.
-/

namespace MarkupTree.Document

/-- The node of a handle that has to be live. -/
def require (d : Document) (id : NodeId) : Except EditError Node :=
  match d.get? id with
  | some node => .ok node
  | none => .error (.stale id)

def requireKind (d : Document) (id : NodeId) (kind : Kind) : Except EditError Unit := do
  let node ← d.require id
  if node.kind = kind then .ok () else .error (.wrongKind (.exactly kind) node.kind)

def requireParent (d : Document) (id : NodeId) (use : ParentUse) : Except EditError NodeId := do
  let node ← d.require id
  match node.parent? with
  | some parent => .ok parent
  | none => .error (.invalid (.noParent use id))

/-- A text takes no children, a document node is no child, and no node goes below itself. -/
def checkInsert (d : Document) (parent node : NodeId) : Except EditError Unit := do
  let parentKind := (← d.require parent).kind
  let nodeKind := (← d.require node).kind
  if parentKind = .text then .error (.wrongKind .container parentKind)
  else if nodeKind = .document then .error (.wrongKind .child nodeKind)
  else if d.isAncestorOrSelf node parent then .error (.invalid (.ownSubtree node))
  else .ok ()

def offset (d : Document) (id : NodeId) : Nat :=
  match d.position? id with
  | some (_, n) => n
  | none => 0

def append (d : Document) (parent node : NodeId) : Except EditError Document := do
  d.checkInsert parent node
  return (d.unlink node).linkLast parent node

def prepend (d : Document) (parent node : NodeId) : Except EditError Document := do
  d.checkInsert parent node
  return (d.unlink node).linkAt parent 0 node

/-- Makes a node the `k`-th child, counted from 1 without the node itself. A number below 1 stands
for the first place and a number too large for the last. -/
def insertAt (d : Document) (k : Int) (parent node : NodeId) : Except EditError Document := do
  d.checkInsert parent node
  return (d.unlink node).linkAt parent (k - 1).toNat node

/-- Moves `new` next to `node`, `after` places behind the place of `node`. -/
def insertBeside (d : Document) (node new : NodeId) (after : Nat) (use : ParentUse) :
    Except EditError Document := do
  let parent ← d.requireParent node use
  d.checkInsert parent new
  if new = node then return d
  let d := d.unlink new
  return d.linkAt parent (d.offset node + after) new

def insertBefore (d : Document) (node new : NodeId) : Except EditError Document :=
  d.insertBeside node new 0 .insertBefore

def insertAfter (d : Document) (node new : NodeId) : Except EditError Document :=
  d.insertBeside node new 1 .insertAfter

def detach (d : Document) (node : NodeId) : Except EditError Document := do
  let _ ← d.require node
  return d.unlink node

/-- Takes a node out of its place and reclaims it with all nodes below it. -/
def delete (d : Document) (node : NodeId) : Except EditError Document := do
  let _ ← d.require node
  if node = .root then .error (.invalid .deleteRoot)
  else return (d.unlink node).reclaim node

def clear (d : Document) (node : NodeId) : Except EditError Document := do
  let _ ← d.require node
  return d.orphan node

/-- Moves `new` to the place of `node` and reclaims `node` with all nodes below it. -/
def replace (d : Document) (node new : NodeId) : Except EditError Document := do
  let parent ← d.requireParent node .replace
  d.checkInsert parent new
  if new = node then return d
  else if d.isAncestorOrSelf node new then .error (.invalid (.insideReplaced new node))
  else
    let d := d.unlink new
    let n := d.offset node
    return ((d.unlink node).linkAt parent n new).reclaim node

/-- Puts `new` where the child number `n` of a node was. -/
def putChild (d : Document) (parent : NodeId) (n : Nat) (new : NodeId) : Document :=
  d.setChildren parent ((d.children parent).set n new)

/-- Exchanges the places and the children of two elements. -/
def swap (d : Document) (a b : NodeId) : Except EditError Document := do
  d.requireKind a .element
  d.requireKind b .element
  let parentA ← d.requireParent a .swap
  let parentB ← d.requireParent b .swap
  if a = b then return d
  else if d.isAncestorOrSelf a b || d.isAncestorOrSelf b a then
    .error (.invalid (.swapRelated a b))
  else
    let offsetA := d.offset a
    let offsetB := d.offset b
    let d := (d.putChild parentA offsetA b).putChild parentB offsetB a
    let d := (d.setParent a (some parentB)).setParent b (some parentA)
    let childrenA := d.children a
    let d := d.orphan a
    let childrenB := d.children b
    let d := d.orphan b
    return (d.adopt a childrenB).adopt b childrenA

/-- Puts an element at the place of a node and the node into the element, whose former children are
detached. If the node has no place the element loses its own. -/
def wrap (d : Document) (node element : NodeId) : Except EditError Document := do
  d.requireKind element .element
  let kind := (← d.require node).kind
  if kind = .document then .error (.wrongKind .child .document)
  else if d.isAncestorOrSelf element node then .error (.invalid (.wrapperContains element node))
  else
    let d := (d.orphan element).unlink element
    let d := match d.position? node with
      | some (parent, n) => (d.unlink node).linkAt parent n element
      | none => d
    return d.linkAt element 0 node

/-- Puts the children of a node at the place of the node. -/
def unwrap (d : Document) (node : NodeId) : Except EditError Document := do
  let parent ← d.requireParent node .unwrap
  let n := d.offset node
  let children := d.children node
  let d := (d.orphan node).unlink node
  return children.zipIdx.foldl (fun d (child, i) => d.linkAt parent (n + i) child) d

/-- The place of a node among its siblings, from 1. -/
def indexOf (d : Document) (node : NodeId) : Except EditError Nat := do
  let _ ← d.require node
  return d.place node

/-- The place of an element among its element siblings, from 1. -/
def indexOfElement (d : Document) (element : NodeId) : Except EditError Nat := do
  d.requireKind element .element
  return ((d.preceding element).filter d.isElement).length + 1

end MarkupTree.Document
