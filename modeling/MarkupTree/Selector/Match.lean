import MarkupTree.Document.Texts
import MarkupTree.Selector.Grammar

/-!
# Selection

An element matches an alternative if a chain of elements ends in it whose first element stands to
the starting node, and each further element to the one before it, as the parts say. Selection tries
the elements that the leading relations can reach, in document order.
-/

namespace MarkupTree

namespace Document

/-- The element siblings before an element that have its name. -/
def sameNameBefore (d : Document) (e : NodeId) : List NodeId :=
  (d.previousElements e).filter fun x => d.name? x == d.name? e

/-- The element siblings after an element that have its name. -/
def sameNameAfter (d : Document) (e : NodeId) : List NodeId :=
  (d.followingElements e).filter fun x => d.name? x == d.name? e

/-- The elements to which an element stands in a relation, nearest first. -/
def related (d : Document) (relation : Combinator) (e : NodeId) : List NodeId :=
  match relation with
  | .descendant => d.ancestorElements e
  | .child => (d.parentElement? e).toList
  | .adjacent => (d.previousElement? e).toList
  | .general => d.previousElements e

/-- Some element ancestor, at most `fuel` steps up, passes `q`. The nearest is asked first. -/
def anyAbove (d : Document) (q : NodeId → Bool) : Nat → NodeId → Bool
  | 0, _ => false
  | fuel + 1, e =>
    match d.parent? e with
    | some parent => d.isElement parent && q parent || d.anyAbove q fuel parent
    | none => false

/-- Some element to which an element stands in a relation passes `q`. The nearest is asked first,
and none is looked for behind one that passes. -/
def anyRelated (d : Document) (relation : Combinator) (e : NodeId) (q : NodeId → Bool) : Bool :=
  match relation with
  | .descendant => d.anyAbove q d.slots.size e
  | relation => (d.related relation e).any q

theorem anyAbove_eq (d : Document) (q : NodeId → Bool) :
    ∀ (fuel : Nat) (e : NodeId), d.anyAbove q fuel e = ((d.climb fuel e).filter d.isElement).any q
  | 0, _ => rfl
  | fuel + 1, e => by
    cases h : d.parent? e with
    | none => simp [anyAbove, climb, h]
    | some parent =>
      cases hp : d.isElement parent <;> simp [anyAbove, climb, h, hp, anyAbove_eq d q fuel parent]

theorem anyRelated_eq (d : Document) (relation : Combinator) (e : NodeId) (q : NodeId → Bool) :
    d.anyRelated relation e q = (d.related relation e).any q := by
  cases relation <;> simp [anyRelated, related, anyAbove_eq, ancestorElements, ancestors]

/-- An element stands in a relation to the node that a selection starts from. -/
def relatedToContext (d : Document) (context : NodeId) (relation : Combinator) (e : NodeId) :
    Bool :=
  match relation with
  | .descendant => e != context && d.isAncestorOrSelf context e
  | .child => d.parent? e == some context
  | .adjacent => d.nextElement? context == some e
  | .general => (d.following context).contains e

end Document

mutual

def Simple.holds (d : Document) : Simple → NodeId → Bool
  | .hasClass token, e => d.hasClass e token
  | .hasId id, e => d.attribute? e "id" == some id
  | .hasAttribute test, e => (d.attribute? e test.name).any test.accepts
  | .firstChild, e => (d.previousElement? e).isNone
  | .lastChild, e => (d.nextElement? e).isNone
  | .onlyChild, e => (d.previousElement? e).isNone && (d.nextElement? e).isNone
  | .firstOfType, e => (d.sameNameBefore e).isEmpty
  | .lastOfType, e => (d.sameNameAfter e).isEmpty
  | .onlyOfType, e => (d.sameNameBefore e).isEmpty && (d.sameNameAfter e).isEmpty
  | .nthChild f, e => f.accepts (d.elementPlace e)
  | .nthLastChild f, e => f.accepts ((d.followingElements e).length + 1)
  | .nthOfType f, e => f.accepts ((d.sameNameBefore e).length + 1)
  | .nthLastOfType f, e => f.accepts ((d.sameNameAfter e).length + 1)
  | .empty, e => (d.children e).all fun child => d.text? child == some ""
  | .root, e => (d.parent? e).any d.isDocument
  | .not alternatives, e => !someChainEnds d alternatives e
  | .contains text, e => Text.holds (d.textContent e) text

/-- An element has the name and all else that a part asks for. -/
def Part.holds (d : Document) : Part → NodeId → Bool
  | ⟨_, tag?, simples⟩, e => (tag?.all fun tag => d.name? e == some tag) && allHold d simples e

def allHold (d : Document) : List Simple → NodeId → Bool
  | [], _ => true
  | simple :: rest, e => simple.holds d e && allHold d rest e

/-- A chain ends in an element, if the element of its first part passes `start`. -/
def chainEnds (d : Document) (start : Combinator → NodeId → Bool) : List Part → NodeId → Bool
  | [], _ => false
  | p :: rest, e =>
    if rest.isEmpty then p.holds d e && start p.relation e
    else
      chainEnds d (fun relation x =>
        d.anyRelated relation x fun y => p.holds d y && start p.relation y) rest e

def someChainEnds (d : Document) : List (List Part) → NodeId → Bool
  | [], _ => false
  | chain :: rest, e => chainEnds d (fun _ _ => true) chain e || someChainEnds d rest e

end

/-- An element matches an alternative relative to a node. -/
def Chain.accepts (d : Document) (context : NodeId) (chain : Chain) (e : NodeId) : Bool :=
  if chain.isEmpty then e == context else chainEnds d (d.relatedToContext context) chain e

namespace Document

/-- The nodes among which a selection looks, in document order: the starting node, the nodes below
it, and its later siblings with the nodes below them, each where an alternative can reach it. -/
def candidates (d : Document) (alternatives : List Chain) (context : NodeId) : List NodeId :=
  let leads (relations : List Combinator) : Bool :=
    alternatives.any fun chain => chain.leading?.any relations.contains
  (if alternatives.any List.isEmpty then [context] else []) ++
    (if leads [.descendant, .child] then d.descendants context else []) ++
    (if leads [.adjacent, .general] then
      (d.following context).flatMap fun x => x :: d.descendants x
    else [])

/-- The elements that match an alternative relative to a node, in document order. -/
def select (d : Document) (alternatives : List Chain) (context : NodeId) : List NodeId :=
  if d.contains context then
    ((d.candidates alternatives context).filter d.isElement).filter fun e =>
      alternatives.any (·.accepts d context e)
  else []

end Document

namespace Selector

def select (s : Selector) (d : Document) (context : NodeId) : List NodeId :=
  d.select s.alternatives context

/-- Some alternative has a chain that ends in an element, wherever the chain begins. -/
def accepts (s : Selector) (d : Document) (e : NodeId) : Bool :=
  someChainEnds d s.alternatives e

end Selector

end MarkupTree
