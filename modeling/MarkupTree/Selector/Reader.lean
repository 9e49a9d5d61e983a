import MarkupTree.Selector.SyntaxError

/-!
# Readers

A reader stands at a place of a text. It returns what it reads there and the place behind it, or
fails with a complaint about some place. Readers are written for every kind of place: here a place
is the text that is left.
-/

namespace MarkupTree

/-- Places in a text, and the failures of readers that stand there. -/
class Place (σ : Type) (ε : outParam Type) where
  /-- The text from the place on. -/
  ahead : σ → Except ε (List Char)
  atEnd : σ → Bool
  /-- The place that is a number of bytes further on. -/
  advance : σ → Nat → σ
  complain : σ → Complaint → ε
  /-- A slice of the text begins or ends inside of a character or is not in the text. -/
  badSlice : ε
  /-- A loop goes on for longer than there are characters. -/
  endless : ε

/-- Reads a value at a place, or fails. -/
abbrev Reader (σ ε : Type) := StateT σ (Except ε)

/-- Nothing fails for readers of the text that is left but for a complaint, so the other failures
stand for none. -/
instance : Place (List Char) Fault where
  ahead cs := .ok cs
  atEnd := List.isEmpty
  advance cs n := (Text.dropBytes? cs n).getD []
  complain cs c := ⟨c, cs⟩
  badSlice := ⟨.expectedSelector, []⟩
  endless := ⟨.expectedSelector, []⟩

namespace Reader

variable {σ ε : Type} [Place σ ε] {α : Type}

/-- The text from the place on. -/
def ahead : Reader σ ε (List Char) := do Place.ahead (← get)

def atEnd : Reader σ ε Bool := return Place.atEnd (← get)

def advance (bytes : Nat) : Reader σ ε Unit := modify (Place.advance · bytes)

/-- Fails with a complaint about the text at a place. -/
def failAt (start : σ) (c : Complaint) : Reader σ ε α := throw (Place.complain start c)

def fail (c : Complaint) : Reader σ ε α := do failAt (← get) c

/-- The first bytes of a text. -/
def sliceTo (cs : List Char) (bytes : Nat) : Reader σ ε (List Char) :=
  match Text.takeBytes? cs bytes with
  | some slice => return slice
  | none => throw (Place.badSlice σ)

/-- A text without its first bytes. -/
def sliceFrom (cs : List Char) (bytes : Nat) : Reader σ ε (List Char) :=
  match Text.dropBytes? cs bytes with
  | some slice => return slice
  | none => throw (Place.badSlice σ)

/-- The character that comes next. -/
def peek : Reader σ ε (Option Char) := return (← ahead).head?

/-- Passes over the character that comes next. -/
def bump : Reader σ ε (Option Char) := do
  match ← peek with
  | some c =>
    advance c.utf8Size
    return some c
  | none => return none

/-- Passes over the character `c` if it comes next, and tells whether it did. -/
def eat (c : Char) : Reader σ ε Bool := do
  if (← peek) = some c then
    advance c.utf8Size
    return true
  else return false

/-- Passes over the character `c`, which has to come next. -/
def expect (c : Char) : Reader σ ε Unit := do
  if !(← eat c) then fail (.expected c)

/-- Values until `step` declines, at most one for every character of `budget`. -/
def collect (step : Reader σ ε (Option α)) : List Char → Reader σ ε (List α)
  | [] => do
    match ← step with
    | some _ => throw (Place.endless σ)
    | none => return []
  | _ :: budget => do
    match ← step with
    | some a => return a :: (← collect step budget)
    | none => return []

/-- Values until `step` declines. Each takes at least one character of the text ahead, so there are
no more values than characters. -/
def many (step : Reader σ ε (Option α)) : Reader σ ε (List α) := do
  collect step (← ahead)

def spaceStep : Reader σ ε (Option Char) := do
  match ← peek with
  | some c => if Text.isSpace c then bump else return none
  | none => return none

/-- Passes over white space, and tells whether there was any. -/
def skipSpace : Reader σ ε Bool := return !(← many spaceStep).isEmpty

end Reader

end MarkupTree
