/-!
# Sets of code points

A set is kept as the increasing list of the code points at which membership changes, so that a
property of the character database is one short list of numbers.
-/

namespace MarkupTree.Text

/-- A set of code points: outside before the first change, inside from it to the next, and so on. -/
structure CodePoints where
  changes : List Nat

namespace CodePoints

/-- `n` is inside iff an odd number of changes lie at or before it. -/
def insideFrom : List Nat → Nat → Bool
  | [], _ => false
  | b :: rest, n => b ≤ n && !insideFrom rest n

def contains (s : CodePoints) (c : Char) : Bool := insideFrom s.changes c.toNat

end CodePoints

end MarkupTree.Text
