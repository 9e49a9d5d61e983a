import MarkupTree.Document.Axes

/-!
# Links

The steps that all edits are made of. Each keeps the two directions of a link in agreement: a node
is in the child list of its parent, and in no other.
-/

namespace MarkupTree.Document

def setParent (d : Document) (id : NodeId) (parent? : Option NodeId) : Document :=
  d.modify id fun node => { node with parent? }

def setChildren (d : Document) (id : NodeId) (children : List NodeId) : Document :=
  d.modify id fun node => { node with children }

/-- Takes a node out of the child list of its parent. -/
def unlink (d : Document) (id : NodeId) : Document :=
  let d := match d.position? id with
    | some (parent, n) => d.setChildren parent ((d.children parent).eraseIdx n)
    | none => d
  d.setParent id none

/-- Puts a detached node before the child number `n` of a node, or at the end. -/
def linkAt (d : Document) (parent : NodeId) (n : Nat) (child : NodeId) : Document :=
  let children := d.children parent
  let d := d.setChildren parent (children.take n ++ child :: children.drop n)
  d.setParent child (some parent)

/-- Puts a detached node after the children of a node. -/
def linkLast (d : Document) (parent child : NodeId) : Document :=
  (d.setChildren parent (d.children parent ++ [child])).setParent child (some parent)

/-- Puts detached nodes after the children of a node, in order. -/
def adopt (d : Document) (parent : NodeId) (children : List NodeId) : Document :=
  children.foldl (·.linkLast parent ·) d

def orphan (d : Document) (id : NodeId) : Document :=
  (d.children id).foldl (·.setParent · none) (d.setChildren id [])

/-- Reclaims the nodes on a work list and all nodes below them. A node goes first, then what is
below it, its last child before the others. -/
def reclaimList (d : Document) : Nat → List NodeId → Document
  | 0, _ => d
  | _, [] => d
  | fuel + 1, id :: rest =>
    match d.get? id with
    | some node => (d.release id).reclaimList fuel (node.children.reverse ++ rest)
    | none => d.reclaimList fuel rest

/-- Reclaims a detached node and all nodes below it. No more nodes are met than there are slots. -/
def reclaim (d : Document) (id : NodeId) : Document := d.reclaimList d.slots.size [id]

theorem children_setChildren_self {d : Document} {id : NodeId} (h : d.contains id = true)
    (children : List NodeId) : (d.setChildren id children).children id = children := by
  obtain ⟨node, hn⟩ := contains_iff.1 h
  simp [Document.children, setChildren, get?_modify_self, hn]

theorem children_setChildren_of_ne {id id' : NodeId} (h : id' ≠ id) (d : Document)
    (children : List NodeId) : (d.setChildren id children).children id' = d.children id' := by
  simp [Document.children, setChildren, get?_modify_of_ne h]

theorem parent?_setChildren (d : Document) (id id' : NodeId) (children : List NodeId) :
    (d.setChildren id children).parent? id' = d.parent? id' := by
  by_cases h : id' = id
  · subst h
    rw [parent?, parent?, setChildren, get?_modify_self, Option.bind_map]
    rfl
  · simp [parent?, setChildren, get?_modify_of_ne h]

theorem parent?_setParent_self {d : Document} {id : NodeId} (h : d.contains id = true)
    (parent? : Option NodeId) : (d.setParent id parent?).parent? id = parent? := by
  obtain ⟨node, hn⟩ := contains_iff.1 h
  simp [Document.parent?, setParent, get?_modify_self, hn]

theorem parent?_setParent_of_ne {id id' : NodeId} (h : id' ≠ id) (d : Document)
    (parent? : Option NodeId) : (d.setParent id parent?).parent? id' = d.parent? id' := by
  simp [Document.parent?, setParent, get?_modify_of_ne h]

theorem children_setParent (d : Document) (id id' : NodeId) (parent? : Option NodeId) :
    (d.setParent id parent?).children id' = d.children id' := by
  by_cases h : id' = id
  · subst h
    cases hn : d.get? id' <;> simp [Document.children, setParent, get?_modify_self, hn]
  · simp [Document.children, setParent, get?_modify_of_ne h]

theorem contains_setChildren (d : Document) (id id' : NodeId) (children : List NodeId) :
    (d.setChildren id children).contains id' = d.contains id' := contains_modify ..

theorem contains_setParent (d : Document) (id id' : NodeId) (parent? : Option NodeId) :
    (d.setParent id parent?).contains id' = d.contains id' := contains_modify ..

theorem contains_unlink (d : Document) (id id' : NodeId) :
    (d.unlink id).contains id' = d.contains id' := by
  unfold unlink
  cases d.position? id <;> simp [contains_setChildren, contains_setParent]

theorem contains_linkAt (d : Document) (parent : NodeId) (n : Nat) (child id : NodeId) :
    (d.linkAt parent n child).contains id = d.contains id := by
  simp [linkAt, contains_setChildren, contains_setParent]

theorem children_linkAt {d : Document} {parent : NodeId} (h : d.contains parent = true)
    (n : Nat) (child : NodeId) :
    (d.linkAt parent n child).children parent =
      (d.children parent).take n ++ child :: (d.children parent).drop n := by
  simp [linkAt, children_setParent, children_setChildren_self h]

theorem linkLast_eq (d : Document) (parent child : NodeId) :
    d.linkLast parent child = d.linkAt parent (d.children parent).length child := by
  simp [linkLast, linkAt]

end MarkupTree.Document
