import MarkupTree.Selector.Reader
import MarkupTree.Text.Digits

/-!
# Names and strings in selectors

The words of a selector text: names with escapes in them, and strings between quotes.
-/

namespace MarkupTree.Selector

open Reader

def isAscii (c : Char) : Bool := c.toNat < 128

/-- A character that a name can begin with where a digit may not stand. -/
def isNameStart (c : Char) : Bool :=
  c.isAlpha || c = '_' || c = '-' || c = '\\' || !isAscii c

/-- A character that stands for itself in a name. -/
def isNameChar (c : Char) : Bool := c.isAlphanum || c = '_' || c = '-' || !isAscii c

def isQuote (c : Char) : Bool := c = '"' || c = '\''

/-- The character with a code point, if it is one. -/
def charOf? (n : Nat) : Option Char := if n.isValidChar then some (Char.ofNat n) else none

variable {σ ε : Type} [Place σ ε]

/-- The character after a backslash: one to six hexadecimal digits and a space that may follow
them, or any other character for itself. -/
def escape : Reader σ ε Char := do
  let start ← get
  let text ← ahead
  match ((text.take 6).takeWhile Text.isHexDigit).length with
  | 0 =>
    match ← bump with
    | some c => return c
    | none => failAt start .incompleteEscape
  | count =>
    match charOf? (Text.hexValue (← sliceTo text count)) with
    | none => failAt start .invalidEscape
    | some c =>
      advance count
      let _ ← eat ' '
      return c

/-- A character of a name, written for itself or as an escape. -/
def nameStep : Reader σ ε (Option Char) := do
  match ← peek with
  | some c =>
    if c = '\\' then
      let _ ← bump
      return some (← escape)
    else if isNameChar c then bump
    else return none
  | none => return none

/-- A name, which may begin with a digit. -/
def name : Reader σ ε String := do
  let start ← get
  match ← many nameStep with
  | [] => failAt start .expectedName
  | cs => return String.ofList cs

/-- The text ahead begins as an identifier does. -/
def beginsName : Option Char → Bool
  | some c => isNameStart c
  | none => false

/-- A name that does not begin with a digit. -/
def identifier : Reader σ ε String := do
  if beginsName (← peek) then name else fail .expectedIdentifier

/-- A character of a string up to its closing quote `q`, which is passed over. A backslash stands
for the character after it. -/
def stringStep (start : σ) (q : Char) : Reader σ ε (Option Char) := do
  match ← bump with
  | none => failAt start .unterminatedString
  | some c =>
    if c = q then return none
    else if c = '\\' then
      match ← bump with
      | none => failAt start .unterminatedString
      | some d => return some d
    else return some c

/-- A string between quotes, or what `other` reads if no quote comes next. -/
def stringOr (other : Reader σ ε String) : Reader σ ε String := do
  let start ← get
  match ← peek with
  | some q =>
    if isQuote q then
      let _ ← bump
      return String.ofList (← many (stringStep start q))
    else other
  | none => other

end MarkupTree.Selector
