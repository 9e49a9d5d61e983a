import MarkupTree.Signal

/-!
# Repairing signals

Signals of any text are cleaned, so that only what trees are made of is left, and then repaired, so
that their tags nest: an end tag closes the innermost open element of its name after all elements
opened in it, an end tag without such an element is left out, and what is open at the end is closed.
-/

namespace MarkupTree.Signal

/-- What a tree takes of a signal: names in lower case, and the first of the attributes with one
name. Empty texts are left out, and blank ones if they are to be dropped. -/
def clean? (dropBlankText : Bool) : Signal → Option Signal
  | .startTag name attributes => some (.startTag (Text.lower name) (Attribute.keepFirst attributes))
  | .endTag name => some (.endTag (Text.lower name))
  | .text s => if s.isEmpty || (dropBlankText && Text.isBlank s) then none else some (.text s)
  | .comment _ | .doctype _ | .processingInstruction _ => none

def clean (dropBlankText : Bool) (signals : List Signal) : List Signal :=
  signals.filterMap (clean? dropBlankText)

/-- The names of the open elements after a signal, the innermost first. -/
def nowOpen (opened : List String) : Signal → List String
  | .startTag name _ => name :: opened
  | .endTag name =>
    match opened.idxOf? name with
    | some inner => opened.drop (inner + 1)
    | none => opened
  | _ => opened

/-- The largest number of elements that are open at once. -/
def mostOpen (opened : List String) : List Signal → Nat
  | [] => opened.length
  | signal :: rest => max opened.length (mostOpen (nowOpen opened signal) rest)

/-- What stands for a signal in repaired signals. -/
def mend (opened : List String) : Signal → List Signal
  | .endTag name =>
    match opened.idxOf? name with
    | some inner => (opened.take inner).map .endTag ++ [.endTag name]
    | none => []
  | signal => [signal]

/-- Repairs signals inside of elements that are open. -/
def repairFrom (opened : List String) : List Signal → List Signal
  | [] => opened.map .endTag
  | signal :: rest => mend opened signal ++ repairFrom (nowOpen opened signal) rest

/-- Cleaned signals with tags that nest. -/
def repair (dropBlankText : Bool) (signals : List Signal) : List Signal :=
  repairFrom [] (clean dropBlankText signals)

/-- Texts, and elements between a start tag and an end tag of one name. -/
inductive Nested : List Signal → Prop
  | nil : Nested []
  | text (s : String) {rest : List Signal} (h : Nested rest) : Nested (.text s :: rest)
  | element (name : String) (attributes : List Attribute) {inner rest : List Signal}
      (h : Nested inner) (h' : Nested rest) :
      Nested (.startTag name attributes :: (inner ++ .endTag name :: rest))

end MarkupTree.Signal
