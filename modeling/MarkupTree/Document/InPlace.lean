import MarkupTree.Document.Normalize

/-!
# Edits in place

The edits as runs on one document that is changed step by step. A step that finds a handle stale, a
place out of range or a node still attached ends the run with a fault, and the document stays as it
is at that moment: nothing is undone.
-/

namespace MarkupTree

inductive EditFault where
  /-- An edit gives up and says why. -/
  | refused (cause : EditError)
  /-- A node is used that the handle no longer names. -/
  | stale (id : NodeId)
  | outOfRange
  /-- A node has a parent where it has to be detached. -/
  | attached (id : NodeId)
  /-- The counter of nodes would fall below zero. -/
  | underflow
  /-- A loop goes on for longer than there are slots. -/
  | endless
deriving DecidableEq, Repr

abbrev Run := EStateM EditFault Document

namespace InPlace

/-- Goes on with what a check gives, or gives up. -/
def check {α : Type} : Except EditError α → Run α
  | .ok a => pure a
  | .error cause => throw (.refused cause)

/-- The node of a handle that is known to be live. -/
def fetch (id : NodeId) : Run Node := do
  match (← get).get? id with
  | some node => return node
  | none => throw (.stale id)

def change (id : NodeId) (f : Node → Node) : Run Unit := do
  if (← get).contains id then modify (·.modify id f) else throw (.stale id)

/-- Changes a child list in a way that may be out of its range. -/
def changeChildren (id : NodeId) (f : List NodeId → Option (List NodeId)) : Run Unit := do
  match f (← fetch id).children with
  | some children => change id fun node => { node with children }
  | none => throw .outOfRange

def removeAt (n : Nat) (children : List NodeId) : Option (List NodeId) :=
  if n < children.length then some (children.eraseIdx n) else none

def setAt (n : Nat) (new : NodeId) (children : List NodeId) : Option (List NodeId) :=
  if n < children.length then some (children.set n new) else none

def putAt (n : Nat) (new : NodeId) (children : List NodeId) : Option (List NodeId) :=
  if n ≤ children.length then some (children.take n ++ new :: children.drop n) else none

/-! ### Steps -/

def unlink (id : NodeId) : Run Unit := do
  match (← get).position? id with
  | some (parent, n) => changeChildren parent (removeAt n)
  | none => pure ()
  change id fun node => { node with parent? := none }

def linkAt (parent : NodeId) (n : Nat) (child : NodeId) : Run Unit := do
  if ((← get).parent? child).isSome then throw (.attached child)
  else do
    changeChildren parent fun children => putAt (min n children.length) child children
    change child fun node => { node with parent? := some parent }

def takeChildren (id : NodeId) : Run (List NodeId) := do
  let children := (← fetch id).children
  change id fun node => { node with children := [] }
  children.forM fun child => change child fun node => { node with parent? := none }
  return children

def adopt (parent : NodeId) (children : List NodeId) : Run Unit :=
  children.forM fun child => do linkAt parent ((← get).children parent).length child

/-- Reclaims the nodes on a stack, the top first, with all nodes below them. -/
def freeLoop : Nat → List NodeId → Run Unit
  | _, [] => pure ()
  | 0, _ :: _ => throw .endless
  | fuel + 1, id :: stack => do
    match (← get).slots[id.index]? with
    | none => throw .outOfRange
    | some slot =>
      if slot.generation ≠ id.generation then freeLoop fuel stack
      else match slot.node? with
        | none => freeLoop fuel stack
        | some node =>
          if (← get).live = 0 then throw .underflow
          else do
            modify (·.release id)
            freeLoop fuel (node.children.reverse ++ stack)

def freeSubtree (id : NodeId) : Run Unit := do
  if ((← get).parent? id).isSome then throw (.attached id)
  else do freeLoop (← get).slots.size [id]

/-- Goes up from a node, if there is one, until `a` is met. -/
def climbLoop (a : NodeId) : Nat → Option NodeId → Run Bool
  | _, none => return false
  | 0, some _ => throw .endless
  | fuel + 1, some id => do
    if id = a then return true
    else climbLoop a fuel ((← get).parent? id)

def isAncestorOrSelf (a id : NodeId) : Run Bool := do
  climbLoop a ((← get).slots.size + 1) (some id)

def checkInsert (parent node : NodeId) : Run Unit := do
  let parentKind := (← check ((← get).require parent)).kind
  let nodeKind := (← check ((← get).require node)).kind
  if parentKind = .text then throw (.refused (.wrongKind .container parentKind))
  else if nodeKind = .document then throw (.refused (.wrongKind .child nodeKind))
  else if ← isAncestorOrSelf node parent then throw (.refused (.invalid (.ownSubtree node)))
  else return

/-! ### Edits of the tree -/

def append (parent node : NodeId) : Run Unit := do
  checkInsert parent node
  unlink node
  linkAt parent ((← get).children parent).length node

def prepend (parent node : NodeId) : Run Unit := do
  checkInsert parent node
  unlink node
  linkAt parent 0 node

def insertAt (k : Int) (parent node : NodeId) : Run Unit := do
  checkInsert parent node
  unlink node
  linkAt parent (k - 1).toNat node

def insertBeside (node new : NodeId) (after : Nat) (use : ParentUse) : Run Unit := do
  let parent ← check ((← get).requireParent node use)
  checkInsert parent new
  if new = node then return
  else do
    unlink new
    linkAt parent ((← get).offset node + after) new

def detach (node : NodeId) : Run Unit := do
  let _ ← check ((← get).require node)
  unlink node

def delete (node : NodeId) : Run Unit := do
  let _ ← check ((← get).require node)
  if node = .root then throw (.refused (.invalid .deleteRoot))
  else do
    unlink node
    freeSubtree node

def clear (node : NodeId) : Run Unit := do
  let _ ← check ((← get).require node)
  let _ ← takeChildren node

def replace (node new : NodeId) : Run Unit := do
  let parent ← check ((← get).requireParent node .replace)
  checkInsert parent new
  if new = node then return
  else if ← isAncestorOrSelf node new then
    throw (.refused (.invalid (.insideReplaced new node)))
  else do
    unlink new
    let n := (← get).offset node
    unlink node
    linkAt parent n new
    freeSubtree node

def swap (a b : NodeId) : Run Unit := do
  check ((← get).requireKind a .element)
  check ((← get).requireKind b .element)
  let parentA ← check ((← get).requireParent a .swap)
  let parentB ← check ((← get).requireParent b .swap)
  if a = b then return
  else if ← isAncestorOrSelf a b <||> isAncestorOrSelf b a then
    throw (.refused (.invalid (.swapRelated a b)))
  else do
    let offsetA := (← get).offset a
    let offsetB := (← get).offset b
    changeChildren parentA (setAt offsetA b)
    changeChildren parentB (setAt offsetB a)
    change a fun node => { node with parent? := some parentB }
    change b fun node => { node with parent? := some parentA }
    let childrenA ← takeChildren a
    let childrenB ← takeChildren b
    adopt a childrenB
    adopt b childrenA

/-- Puts an element at the place of a node, if it has one. -/
def takePlace (node element : NodeId) : Run Unit := do
  match (← get).position? node with
  | some (parent, n) =>
    unlink node
    linkAt parent n element
  | none => pure ()

def wrap (node element : NodeId) : Run Unit := do
  check ((← get).requireKind element .element)
  let kind := (← check ((← get).require node)).kind
  if kind = .document then throw (.refused (.wrongKind .child .document))
  else if ← isAncestorOrSelf element node then
    throw (.refused (.invalid (.wrapperContains element node)))
  else do
    let _ ← takeChildren element
    unlink element
    takePlace node element
    linkAt element 0 node

def unwrap (node : NodeId) : Run Unit := do
  let parent ← check ((← get).requireParent node .unwrap)
  let n := (← get).offset node
  let children ← takeChildren node
  unlink node
  children.zipIdx.forM fun (child, i) => linkAt parent (n + i) child

/-- The text kept last, if it is a text that was kept last. -/
def lastText : List NodeId → Run (Option (NodeId × String))
  | [] => return none
  | last :: _ => return (← fetch last).content.text?.map (last, ·)

/-- Goes through detached children, of which `kept` are kept so far, the last one first. -/
def mergeLoop (kept : List NodeId) : List NodeId → Run (List NodeId)
  | [] => return kept.reverse
  | child :: rest => do
    match (← fetch child).content.text? with
    | none => mergeLoop (child :: kept) rest
    | some text =>
      let last? ← lastText kept
      if text.isEmpty then
        freeSubtree child
        mergeLoop kept rest
      else match last? with
        | some (last, run) =>
          change last fun node => { node with content := .text (run ++ text) }
          freeSubtree child
          mergeLoop kept rest
        | none => mergeLoop (child :: kept) rest

def normalizeOne (id : NodeId) : Run Unit := do
  adopt id (← mergeLoop [] (← takeChildren id))

/-- The nodes of a list that are no texts. -/
def containers : List NodeId → Run (List NodeId)
  | [] => return []
  | id :: rest => do
    let kind := (← fetch id).kind
    let rest ← containers rest
    return if kind = .text then rest else id :: rest

def normalize (id : NodeId) : Run Unit := do
  let _ ← check ((← get).require id)
  (← containers (id :: (← get).descendants id)).forM normalizeOne

/-! ### Edits of what nodes hold -/

def changeAttributes (id : NodeId) (f : List Attribute → List Attribute) : Run Unit := do
  let actual := (← check ((← get).require id)).kind
  match (← fetch id).content with
  | .element name attributes => change id fun node =>
      { node with content := .element name (f attributes) }
  | _ => throw (.refused (.wrongKind (.exactly .element) actual))

def setAttribute (id : NodeId) (name value : String) : Run Unit :=
  changeAttributes id (Attribute.assign name value)

def deleteAttribute (id : NodeId) (name : String) : Run Unit :=
  changeAttributes id (Attribute.erase name)

def addClass (id : NodeId) (token : String) : Run Unit := do
  check (Document.checkToken token)
  match (← check ((← get).require id)).content.attribute? "class" with
  | some value =>
    if Text.hasToken value token then return
    else if ¬ Text.isBlank value then setAttribute id "class" (value ++ " " ++ token)
    else setAttribute id "class" token
  | none => setAttribute id "class" token

def removeClass (id : NodeId) (token : String) : Run Unit := do
  check (Document.checkToken token)
  match (← check ((← get).require id)).content.attribute? "class" with
  | some value =>
    let remaining := (Text.tokens value).filter (· != token)
    if ¬ Text.hasToken value token then return
    else if remaining.isEmpty then deleteAttribute id "class"
    else setAttribute id "class" (" ".intercalate remaining)
  | none => check ((← get).requireKind id .element)

def rename (id : NodeId) (name : String) : Run Unit := do
  check ((← get).requireKind id .element)
  if name.isEmpty then throw (.refused (.invalid .emptyName))
  else do
    match (← fetch id).content with
    | .element _ attributes => change id fun node =>
        { node with content := .element (Text.lower name) attributes }
    | _ => pure ()

def setText (id : NodeId) (text : String) : Run Unit := do
  check ((← get).requireKind id .text)
  match (← fetch id).content with
  | .text _ => change id fun node => { node with content := .text text }
  | _ => pure ()

end InPlace

end MarkupTree
