import MarkupTree.Tree

/-!
# Equality of trees

Two trees are equal if they say the same once runs of texts count as one text and empty texts do
not count. Attributes have no order. A second equality leaves the white space around every text
out of account.
-/

namespace MarkupTree

namespace Tree

/-- Puts a text before a list of trees, into the text that stands there if there is one. -/
def joinText (s : String) : List Tree → List Tree
  | .text run :: ts => .text (s ++ run) :: ts
  | ts => .text s :: ts

def dropEmpty (ts : List Tree) : List Tree :=
  ts.filter fun t => match t with
    | .text s => !s.isEmpty
    | _ => true

mutual

/-- The tree with `f` applied to every text, texts side by side joined, and then no empty text
among the children of a node. -/
def normal (f : String → String) : Tree → Tree
  | .document children => .document (dropEmpty (normalList f children))
  | .element name attributes children =>
    .element name attributes (dropEmpty (normalList f children))
  | .text s => .text (f s)

def normalList (f : String → String) : List Tree → List Tree
  | [] => []
  | t :: ts =>
    match t.normal f with
    | .text s => joinText s (normalList f ts)
    | u => u :: normalList f ts

end

/-- The same attributes in any order, if no name is repeated. -/
def sameAttributes (a b : List Attribute) : Bool := a.length == b.length && a.all b.contains

mutual

/-- The trees agree, the order of attributes left aside. -/
def same : Tree → Tree → Bool
  | .document a, .document b => sameList a b
  | .element nameA attributesA a, .element nameB attributesB b =>
    nameA == nameB && sameAttributes attributesA attributesB && sameList a b
  | .text a, .text b => a == b
  | _, _ => false

def sameList : List Tree → List Tree → Bool
  | [], [] => true
  | t :: ts, u :: us => t.same u && sameList ts us
  | _, _ => false

end

/-- The same tree, if runs of texts count as one text and empty texts do not count. -/
def equal (a b : Tree) : Bool := (a.normal id).same (b.normal id)

/-- The same tree, if moreover every text is trimmed first. -/
def equalModuloSpace (a b : Tree) : Bool := (a.normal Text.trim).same (b.normal Text.trim)

end Tree

def Document.equal (d : Document) (a : NodeId) (e : Document) (b : NodeId) : Bool :=
  match d.tree? a, e.tree? b with
  | some s, some t => s.equal t
  | _, _ => false

/-- Nodes of two documents have equal trees, white space around texts left aside. -/
def Document.equalModuloSpace (d : Document) (a : NodeId) (e : Document) (b : NodeId) : Bool :=
  match d.tree? a, e.tree? b with
  | some s, some t => s.equalModuloSpace t
  | _, _ => false

end MarkupTree
