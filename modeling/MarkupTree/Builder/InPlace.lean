import MarkupTree.Builder
import MarkupTree.Document.InPlace

/-!
# Building in place

The builder that changes its document and its open elements step by step. A signal that is refused
half way leaves both as they are at that moment: nothing is undone.
-/

namespace MarkupTree

inductive BuildFault where
  /-- A signal is refused. -/
  | refused (cause : BuildError)
  /-- A step on the document goes wrong. -/
  | document (fault : EditFault)
deriving DecidableEq, Repr

abbrev BuildRun := EStateM BuildFault Builder

namespace BuildRun

/-- A step on the document of the builder. -/
def onDocument {α : Type} (m : Run α) : BuildRun α := fun b =>
  match m b.document with
  | .ok a document => .ok a { b with document }
  | .error fault document => .error (.document fault) { b with document }

def create (content : Content) : BuildRun NodeId := do
  let (document, id) := (← get).document.alloc content
  modify fun b => { b with document }
  return id

/-- Puts a detached node behind the children of the innermost open element. -/
def append (node : NodeId) : BuildRun Unit := do
  let parent := (← get).current
  let last := ((← get).document.children parent).length
  onDocument (InPlace.linkAt parent last node)

/-- The number of elements in front of the first one of a name. -/
def findOpen (name : String) : List NodeId → BuildRun (Option Nat)
  | [] => return none
  | id :: rest => do
    if (← onDocument (InPlace.fetch id)).content.name? = some name then return some 0
    else return (← findOpen name rest).map (· + 1)

def close (name : String) : BuildRun Unit := do
  match ← findOpen name (← get).opened with
  | none =>
    if (← get).config.strict then throw (.refused (.unbalanced (.notOpen name)))
    else return
  | some inner =>
    if (← get).config.strict && inner ≠ 0 then
      throw (.refused (.unbalanced (.wouldClose name inner)))
    else modify fun b => { b with opened := b.opened.drop (inner + 1) }

def push : Signal → BuildRun Unit
  | .startTag name attributes => do
    let b ← get
    if b.config.maxDepth ≤ b.depth then
      throw (.refused (.tooDeep (b.depth + 1) b.config.maxDepth))
    else do
      let element ← create (.element (Text.lower name) (Attribute.keepFirst attributes))
      append element
      modify fun b => { b with opened := element :: b.opened }
  | .endTag name => close (Text.lower name)
  | .text s => do
    if s.isEmpty || ((← get).config.dropBlankText && Text.isBlank s) then return
    else append (← create (.text s))
  | .comment _ | .doctype _ | .processingInstruction _ => return

end BuildRun

namespace Builder

/-- What a signal in place leaves behind, however it ends. -/
def after (b : Builder) (s : Signal) : Builder :=
  match BuildRun.push s b with
  | .ok _ b' => b'
  | .error _ b' => b'

/-- A builder that has been given signals one by one, whichever of them it refused. -/
def fed (config : Config) (signals : List Signal) : Builder := signals.foldl after (new config)

end Builder

end MarkupTree
