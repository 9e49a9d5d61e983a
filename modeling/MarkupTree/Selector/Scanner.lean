import MarkupTree.Selector.Grammar

/-!
# Reading by bytes

The readers of selectors at places that are numbers of bytes. The text at a place is a slice, which
there is only if the place is in the text and between two of its characters, and an error takes its
fragment as a slice as well.
-/

namespace MarkupTree

/-- A place in a text: the number of bytes before it. -/
structure Cursor where
  text : List Char
  position : Nat

/-- How reading by bytes ends without a selector. -/
inductive Stop where
  | refused (e : SyntaxError)
  /-- A slice that there is not. -/
  | badSlice
  | endless
deriving DecidableEq, Repr

namespace Cursor

/-- The number of bytes of a text up to the first white space behind its first character. -/
def fragmentLength : List Char → Nat
  | [] => 0
  | c :: cs => c.utf8Size + Text.utf8Length (cs.takeWhile (!Text.isSpace ·))

/-- The error with a complaint about the text at the place, if the slices for it are there. -/
def error? (k : Cursor) (c : Complaint) : Option SyntaxError := do
  let tail ← Text.dropBytes? k.text k.position
  let fragment ← Text.takeBytes? tail (fragmentLength tail)
  return ⟨c, if tail.isEmpty then "end of selector" else String.ofList fragment, k.position⟩

instance : Place Cursor Stop where
  ahead k := (Text.dropBytes? k.text k.position).elim (.error .badSlice) .ok
  atEnd k := Text.utf8Length k.text ≤ k.position
  advance k bytes := { k with position := k.position + bytes }
  complain k c := (k.error? c).elim .badSlice .refused
  badSlice := .badSlice
  endless := .endless

end Cursor

namespace Selector

/-- Reads a selector by bytes. -/
def scan (source : String) : Except Stop Selector := do
  let (alternatives, _) ← whole.run (⟨source.toList, 0⟩ : Cursor)
  return { source, alternatives }

end Selector

end MarkupTree
