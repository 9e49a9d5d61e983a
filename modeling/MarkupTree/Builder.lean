import MarkupTree.Document.Links
import MarkupTree.Signal.Json

/-!
# Building documents

A builder takes the signals of a markup text one by one and keeps the elements that are open. An
end tag closes the innermost open element of its name together with all elements opened in it; one
without such an element is passed over, and what is open at the end is closed. A strict builder
refuses all three.
-/

namespace MarkupTree

structure Config where
  strict : Bool
  /-- The largest number of open elements. -/
  maxDepth : Nat
  /-- Blank texts are left out. -/
  dropBlankText : Bool
deriving DecidableEq, Repr

namespace Config

def default : Config := ⟨false, 512, false⟩

/-- Reads a configuration; fields that are missing have their default. The depth is a natural
number below 2^64. -/
def ofJson? (v : Json) : Option Config := do
  match ← v.fields? ["strict", "max_depth", "drop_whitespace_text"] with
  | [strict?, depth?, drop?] =>
    let strict ← match strict? with
      | some v => v.bool?
      | none => some default.strict
    let maxDepth ← match depth? with
      | some v => v.natural?.filter (· < UInt64.size)
      | none => some default.maxDepth
    let dropBlankText ← match drop? with
      | some v => v.bool?
      | none => some default.dropBlankText
    some { strict, maxDepth, dropBlankText }
  | _ => none

end Config

/-- How the tags of a text fail to nest. -/
inductive Imbalance where
  | notOpen (name : String)
  /-- The end tag of an element in which `inner` elements are open. -/
  | wouldClose (name : String) (inner : Nat)
  | stillOpen (count : Nat)
deriving DecidableEq, Repr

def Imbalance.message : Imbalance → String
  | .notOpen name => s!"end tag </{name}> has no open element"
  | .wouldClose name inner => s!"end tag </{name}> would close {inner} other open element(s)"
  | .stillOpen count => s!"{count} element(s) still open at end of stream"

inductive BuildError where
  | unbalanced (cause : Imbalance)
  | tooDeep (depth limit : Nat)
deriving DecidableEq, Repr

def BuildError.message : BuildError → String
  | .unbalanced cause => "Unbalanced signal stream: " ++ cause.message
  | .tooDeep depth limit => s!"Maximum element depth exceeded: {depth} > {limit}"

structure Builder where
  config : Config
  document : Document
  /-- The open elements, the innermost first. -/
  opened : List NodeId

namespace Builder

def new (config : Config) : Builder := ⟨config, .new, []⟩

def depth (b : Builder) : Nat := b.opened.length

def current (b : Builder) : NodeId := b.opened.headD .root

/-- Closes the innermost open element of a name. -/
def close (b : Builder) (name : String) : Except BuildError Builder :=
  match b.opened.findIdx? fun id => b.document.name? id == some name with
  | none =>
    if b.config.strict then .error (.unbalanced (.notOpen name)) else .ok b
  | some inner =>
    if b.config.strict && inner ≠ 0 then .error (.unbalanced (.wouldClose name inner))
    else .ok { b with opened := b.opened.drop (inner + 1) }

def push (b : Builder) : Signal → Except BuildError Builder
  | .startTag name attributes =>
    if b.config.maxDepth ≤ b.depth then .error (.tooDeep (b.depth + 1) b.config.maxDepth)
    else
      let (document, element) := b.document.createElement name attributes
      .ok { b with
        document := document.linkLast b.current element
        opened := element :: b.opened }
  | .endTag name => b.close (Text.lower name)
  | .text s =>
    if s.isEmpty || (b.config.dropBlankText && Text.isBlank s) then .ok b
    else
      let (document, text) := b.document.createText s
      .ok { b with document := document.linkLast b.current text }
  | .comment _ | .doctype _ | .processingInstruction _ => .ok b

/-- The document, once all signals have been taken. -/
def finish (b : Builder) : Except BuildError Document :=
  if b.config.strict && !b.opened.isEmpty then .error (.unbalanced (.stillOpen b.depth))
  else .ok b.document

end Builder

namespace Document

/-- The document that signals describe. -/
def ofSignals (config : Config) (signals : List Signal) : Except BuildError Document := do
  (← signals.foldlM Builder.push (Builder.new config)).finish

/-- The document that a JSON text of signals describes, unless it is no such text. -/
def ofSignalsText? (s : String) : Option (Except BuildError Document) :=
  (Signal.parseList? s).map (ofSignals .default)

end Document

end MarkupTree
