import MarkupTree.Selector.Nth
import MarkupTree.Text.Find
import MarkupTree.Text.Tokens

/-!
# Selectors

A selector lists alternatives. An alternative is a chain of parts from left to right; each part
asks something of one element and says how that element stands to the element of the part before
it. The first part says how its element stands to the node that the selection starts from.
-/

namespace MarkupTree

/-- How an element stands to the one before it in a chain. -/
inductive Combinator where
  | descendant
  | child
  | adjacent
  | general
deriving DecidableEq, Repr

inductive AttributeOperator where
  | present
  | equals
  /-- The value is one of the tokens. -/
  | includes
  /-- The value, or the value with a hyphen behind it at the beginning. -/
  | dashMatch
  | begins
  | ends
  | holds
deriving DecidableEq, Repr

/-- What is asked of an attribute. The value is empty where only its presence is asked. -/
structure AttributeTest where
  name : String
  operator : AttributeOperator
  value : String
deriving DecidableEq, Repr

/-- The attribute may have the value `actual`. -/
def AttributeTest.accepts (t : AttributeTest) (actual : String) : Bool :=
  match t.operator with
  | .present => true
  | .equals => actual == t.value
  | .includes => Text.hasToken actual t.value
  | .dashMatch => actual == t.value || Text.startsWith actual (t.value ++ "-")
  | .begins => !t.value.isEmpty && Text.startsWith actual t.value
  | .ends => !t.value.isEmpty && Text.endsWith actual t.value
  | .holds => !t.value.isEmpty && Text.holds actual t.value

mutual

/-- One thing asked of an element. -/
inductive Simple where
  | hasClass (token : String)
  | hasId (id : String)
  | hasAttribute (test : AttributeTest)
  | firstChild
  | lastChild
  | onlyChild
  | firstOfType
  | lastOfType
  | onlyOfType
  | nthChild (f : Nth)
  | nthLastChild (f : Nth)
  | nthOfType (f : Nth)
  | nthLastOfType (f : Nth)
  /-- No child but empty texts. -/
  | empty
  /-- A child of a document node. -/
  | root
  /-- No alternative has a chain that ends in the element. -/
  | not (alternatives : List (List Part))
  /-- The text at and below the element holds a text. -/
  | contains (text : String)

/-- What is asked of one element of a chain. -/
inductive Part where
  | mk (relation : Combinator) (tag? : Option String) (simples : List Simple)

end

/-- A chain of parts. The empty chain stands for the node that the selection starts from. -/
abbrev Chain := List Part

namespace Part

def relation : Part → Combinator
  | ⟨relation, _, _⟩ => relation

/-- The name asked for, in lower case; `none` asks for none. -/
def tag? : Part → Option String
  | ⟨_, tag?, _⟩ => tag?

def simples : Part → List Simple
  | ⟨_, _, simples⟩ => simples

end Part

/-- How the element of the first part stands to the node that the selection starts from. -/
def Chain.leading? (chain : Chain) : Option Combinator := chain.head?.map Part.relation

/-- A selector: its text and the alternatives that the text lists. -/
structure Selector where
  source : String
  alternatives : List Chain

end MarkupTree
