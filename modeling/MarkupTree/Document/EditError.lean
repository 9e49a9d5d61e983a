import MarkupTree.Node
import MarkupTree.Text.Quoted

/-!
# Why an edit is refused

An edit checks all it needs before it changes anything, so a refused edit leaves the document as
it was.
-/

namespace MarkupTree

/-- The edits that need a node with a parent. -/
inductive ParentUse where
  | insertBefore
  | insertAfter
  | replace
  | swap
  | unwrap
deriving DecidableEq, Repr

def ParentUse.name : ParentUse → String
  | .insertBefore => "insert_before"
  | .insertAfter => "insert_after"
  | .replace => "replace"
  | .swap => "swap"
  | .unwrap => "unwrap"

/-- The kinds that an edit accepts. -/
inductive Expected where
  | exactly (kind : Kind)
  /-- A node that can have children. -/
  | container
  /-- A node that can be a child. -/
  | child
deriving DecidableEq, Repr

def Expected.name : Expected → String
  | .exactly kind => kind.name
  | .container => "element or document"
  | .child => "element or text"

/-- Edits that make no sense on nodes of the right kinds. -/
inductive InvalidEdit where
  | ownSubtree (node : NodeId)
  | noParent (use : ParentUse) (node : NodeId)
  | deleteRoot
  | insideReplaced (new node : NodeId)
  | swapRelated (a b : NodeId)
  | wrapperContains (element node : NodeId)
  | notOneToken (token : String)
  | emptyName
deriving DecidableEq, Repr

def InvalidEdit.message : InvalidEdit → String
  | .ownSubtree node => s!"cannot insert node {node} into its own subtree"
  | .noParent use node => s!"{use.name}: node {node} has no parent"
  | .deleteRoot => "cannot delete the document node"
  | .insideReplaced new node => s!"replace: node {new} lies inside the replaced node {node}"
  | .swapRelated a b => s!"swap: {a} and {b} are in an ancestor relation"
  | .wrapperContains element node => s!"wrap: wrapper {element} contains node {node}"
  | .notOneToken token => "not a single class token: " ++ Text.quote token
  | .emptyName => "set_name: empty element name"

inductive EditError where
  | stale (id : NodeId)
  | wrongKind (expected : Expected) (actual : Kind)
  | invalid (cause : InvalidEdit)
deriving DecidableEq, Repr

def EditError.message : EditError → String
  | .stale id => s!"Stale node handle: {id}"
  | .wrongKind expected actual =>
    s!"Invalid node type: expected {expected.name}, got {actual.name}"
  | .invalid cause => "Invalid operation: " ++ cause.message

end MarkupTree
