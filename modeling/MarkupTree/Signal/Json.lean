import MarkupTree.Document.Edit
import MarkupTree.Json.Reader
import MarkupTree.Json.Writer
import MarkupTree.Signal

/-!
# Signals as JSON

A signal is an object with one member, whose key tells the kind of signal. Start tags and
attributes are records.
-/

namespace MarkupTree

namespace Attribute

def toJson (a : Attribute) : Json :=
  .record [("name", .text a.name), ("value", .text a.value)]

def ofJson? (v : Json) : Option Attribute := do
  match ← v.fields? ["name", "value"] with
  | [some name, some value] => some ⟨← name.text?, ← value.text?⟩
  | _ => none

end Attribute

namespace Signal

def toJson : Signal → Json
  | .startTag name attributes =>
    .record [("start_tag", .record
      [("name", .text name), ("attributes", .array (attributes.map Attribute.toJson))])]
  | .endTag name => .record [("end_tag", .text name)]
  | .text s => .record [("text", .text s)]
  | .comment s => .record [("comment", .text s)]
  | .doctype s => .record [("doctype", .text s)]
  | .processingInstruction s => .record [("processing_instruction", .text s)]

/-- A start tag; without the field `attributes` it has none. -/
def startTagOfJson? (v : Json) : Option Signal := do
  match ← v.fields? ["name", "attributes"] with
  | [some name, some attributes] =>
    some (.startTag (← name.text?) (← (← attributes.items?).mapM Attribute.ofJson?))
  | [some name, none] => some (.startTag (← name.text?) [])
  | _ => none

def ofJson? : Json → Option Signal
  | .object [(some key, v)] =>
    match key with
    | "start_tag" => startTagOfJson? v
    | "end_tag" => v.text?.map .endTag
    | "text" => v.text?.map .text
    | "comment" => v.text?.map .comment
    | "doctype" => v.text?.map .doctype
    | "processing_instruction" => v.text?.map .processingInstruction
    | _ => none
  | _ => none

def listOfJson? (v : Json) : Option (List Signal) := do (← v.items?).mapM ofJson?

def parseList? (s : String) : Option (List Signal) := (Json.parse? s).bind listOfJson?

def renderList (signals : List Signal) : String := Json.render (.array (signals.map toJson))

end Signal

def Document.signalsText (d : Document) (id : NodeId) : Except EditError String := do
  let _ ← d.require id
  return Signal.renderList (d.signals id)

end MarkupTree
