import MarkupTree.Signal

/-!
# Canonical signals

Signals can say the same in several ways: a text may come in pieces, empty texts may stand anywhere,
and the attributes of a start tag may come in any order. The canonical form leaves one way.
-/

namespace MarkupTree

/-- The attributes in the order of their names. -/
def Attribute.sorted (as : List Attribute) : List Attribute :=
  as.mergeSort fun a b => a.name ≤ b.name

namespace Signal

/-- The signal with `f` applied to its text, if it is one. -/
def mapText (f : String → String) : Signal → Signal
  | .text s => .text (f s)
  | signal => signal

def sortAttributes : Signal → Signal
  | .startTag name attributes => .startTag name (Attribute.sorted attributes)
  | signal => signal

/-- Puts a text before signals, into the text that stands there if there is one. -/
def joinText (s : String) : List Signal → List Signal
  | .text run :: rest => .text (s ++ run) :: rest
  | rest => .text s :: rest

/-- Every run of texts as one text. -/
def joinTexts : List Signal → List Signal
  | [] => []
  | .text s :: rest => joinText s (joinTexts rest)
  | signal :: rest => signal :: joinTexts rest

/-- Runs of texts joined, then no empty text, and attributes in the order of their names. -/
def canonical (signals : List Signal) : List Signal :=
  ((joinTexts signals).filter (· != .text "")).map sortAttributes

end Signal

end MarkupTree
