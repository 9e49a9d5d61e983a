import MarkupTree.Document.Edit

/-!
# Edits of what nodes hold

Attributes, class tokens, names and texts. These edits touch no link and no other node.
-/

namespace MarkupTree.Document

def setContent (d : Document) (id : NodeId) (content : Content) : Document :=
  d.modify id fun node => { node with content }

/-- The name and the attributes of a handle that has to name an element. -/
def requireElement (d : Document) (id : NodeId) :
    Except EditError (String × List Attribute) := do
  let node ← d.require id
  match node.content with
  | .element name attributes => .ok (name, attributes)
  | content => .error (.wrongKind (.exactly .element) content.kind)

/-- Gives an attribute a value, in place if it is there and at the end if not. -/
def setAttribute (d : Document) (id : NodeId) (name value : String) :
    Except EditError Document := do
  let (tag, attributes) ← d.requireElement id
  return d.setContent id (.element tag (Attribute.assign name value attributes))

/-- Takes an attribute away and tells the value it had. -/
def deleteAttribute (d : Document) (id : NodeId) (name : String) :
    Except EditError (Document × Option String) := do
  let (tag, attributes) ← d.requireElement id
  return (d.setContent id (.element tag (Attribute.erase name attributes)),
    Attribute.lookup? name attributes)

/-- A class token is not empty and holds no white space. -/
def checkToken (token : String) : Except EditError Unit :=
  if token.isEmpty || token.toList.any Text.isSpace then .error (.invalid (.notOneToken token))
  else .ok ()

/-- Adds a class token behind the others, unless it is there. -/
def addClass (d : Document) (id : NodeId) (token : String) : Except EditError Document := do
  checkToken token
  let node ← d.require id
  match node.content.attribute? "class" with
  | some value =>
    if Text.hasToken value token then return d
    else if Text.isBlank value then d.setAttribute id "class" token
    else d.setAttribute id "class" (value ++ " " ++ token)
  | none => d.setAttribute id "class" token

/-- Takes every occurrence of a class token away, and the attribute with the last token. -/
def removeClass (d : Document) (id : NodeId) (token : String) : Except EditError Document := do
  checkToken token
  let node ← d.require id
  match node.content.attribute? "class" with
  | some value =>
    if Text.hasToken value token then
      match (Text.tokens value).filter (· != token) with
      | [] => return (← d.deleteAttribute id "class").1
      | rest => d.setAttribute id "class" (" ".intercalate rest)
    else return d
  | none =>
    d.requireKind id .element
    return d

def rename (d : Document) (id : NodeId) (name : String) : Except EditError Document := do
  let (_, attributes) ← d.requireElement id
  if name.isEmpty then .error (.invalid .emptyName)
  else return d.setContent id (.element (Text.lower name) attributes)

def setText (d : Document) (id : NodeId) (text : String) : Except EditError Document := do
  d.requireKind id .text
  return d.setContent id (.text text)

end MarkupTree.Document
