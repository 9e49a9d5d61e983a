import MarkupTree.Document.Basic

/-!
# Axes

The nodes that stand in a given relation to a node: above it, below it, beside it. Walks up and
down are bounded by the number of slots, which no chain of parents exceeds.
-/

namespace MarkupTree.Document

/-- At most `fuel` steps up from a node, nearest first. -/
def climb (d : Document) : Nat → NodeId → List NodeId
  | 0, _ => []
  | fuel + 1, id =>
    match d.parent? id with
    | some parent => parent :: d.climb fuel parent
    | none => []

/-- The parents of a node, nearest first, up to a node without a parent. -/
def ancestors (d : Document) (id : NodeId) : List NodeId := d.climb d.slots.size id

/-- The nodes at most `fuel` levels below a node in document order. -/
def descend (d : Document) : Nat → NodeId → List NodeId
  | 0, _ => []
  | fuel + 1, id => (d.children id).flatMap fun child => child :: d.descend fuel child

/-- The nodes at most `fuel` levels below a node, followed by the nodes of `rest`. -/
def descendOnto (d : Document) : Nat → NodeId → List NodeId → List NodeId
  | 0, _, rest => rest
  | fuel + 1, id, rest =>
    (d.children id).foldr (fun child rest => child :: d.descendOnto fuel child rest) rest

/-- The nodes below a node in document order: each child, followed by the nodes below it. -/
def descendants (d : Document) (id : NodeId) : List NodeId := d.descendOnto d.slots.size id []

theorem descendOnto_eq (d : Document) : ∀ (fuel : Nat) (id : NodeId) (rest : List NodeId),
    d.descendOnto fuel id rest = d.descend fuel id ++ rest
  | 0, _, _ => rfl
  | fuel + 1, id, rest => by
    simp only [descendOnto, descend]
    induction d.children id with
    | nil => rfl
    | cons child children ih => simp [ih, descendOnto_eq d fuel child]

theorem descendants_eq (d : Document) (id : NodeId) :
    d.descendants id = d.descend d.slots.size id := by
  simp [descendants, descendOnto_eq]

def isAncestorOrSelf (d : Document) (a id : NodeId) : Bool :=
  a == id || (d.ancestors id).contains a

/-- The parent of a node and the number of its children before the node. -/
def position? (d : Document) (id : NodeId) : Option (NodeId × Nat) :=
  match d.parent? id with
  | some parent => ((d.children parent).idxOf? id).map (parent, ·)
  | none => none

/-- The siblings after a node, nearest first. -/
def following (d : Document) (id : NodeId) : List NodeId :=
  match d.position? id with
  | some (parent, n) => (d.children parent).drop (n + 1)
  | none => []

/-- The siblings before a node in document order. -/
def preceding (d : Document) (id : NodeId) : List NodeId :=
  match d.position? id with
  | some (parent, n) => (d.children parent).take n
  | none => []

/-- The siblings before a node, nearest first. -/
def previousSiblings (d : Document) (id : NodeId) : List NodeId := (d.preceding id).reverse

/-- The other children of the parent in document order. -/
def siblings (d : Document) (id : NodeId) : List NodeId :=
  match d.parent? id with
  | some parent => (d.children parent).filter (· != id)
  | none => []

def childElements (d : Document) (id : NodeId) : List NodeId := (d.children id).filter d.isElement

/-- The entry number `k` of a list, counted from 1. -/
def entry? {α : Type} (as : List α) : Nat → Option α
  | 0 => none
  | k + 1 => as[k]?

def child? (d : Document) (id : NodeId) (k : Nat) : Option NodeId := entry? (d.children id) k

def childElement? (d : Document) (id : NodeId) (k : Nat) : Option NodeId :=
  entry? (d.childElements id) k

def parentElement? (d : Document) (id : NodeId) : Option NodeId :=
  (d.parent? id).filter d.isElement

/-- The ancestors that are elements, nearest first. -/
def ancestorElements (d : Document) (id : NodeId) : List NodeId :=
  (d.ancestors id).filter d.isElement

/-- The element siblings after an element, nearest first. -/
def followingElements (d : Document) (id : NodeId) : List NodeId :=
  (d.following id).filter d.isElement

/-- The element siblings before an element, nearest first. -/
def previousElements (d : Document) (id : NodeId) : List NodeId :=
  (d.previousSiblings id).filter d.isElement

def nextElement? (d : Document) (id : NodeId) : Option NodeId := (d.followingElements id).head?

def previousElement? (d : Document) (id : NodeId) : Option NodeId := (d.previousElements id).head?

/-- The place among all siblings, from 1; it is 1 without a parent. -/
def place (d : Document) (id : NodeId) : Nat := (d.preceding id).length + 1

/-- The place among the element siblings, from 1; it is 1 without a parent. -/
def elementPlace (d : Document) (id : NodeId) : Nat := (d.previousElements id).length + 1

/-- An element right below a document node, or without a parent. -/
def isTopElement (d : Document) (id : NodeId) : Bool :=
  d.isElement id && (d.parent? id).all d.isDocument

/-- The elements below a node that have the given name, compared in lower case. -/
def elementsNamed (d : Document) (id : NodeId) (name : String) : List NodeId :=
  (d.descendants id).filter fun x => d.name? x == some (Text.lower name)

/-- The siblings of a node with a place stand around it in document order. -/
theorem children_eq_of_position? {d : Document} {id parent : NodeId} {n : Nat}
    (h : d.position? id = some (parent, n)) :
    d.children parent = d.preceding id ++ id :: d.following id := by
  simp only [preceding, following, h]
  simp only [position?] at h
  split at h
  · rw [Option.map_eq_some_iff] at h
    obtain ⟨m, hm, hp⟩ := h
    cases hp
    rw [List.idxOf?_eq_some_iff] at hm
    obtain ⟨hlt, rfl, _⟩ := hm
    simp
  · cases h

end MarkupTree.Document
