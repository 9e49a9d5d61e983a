import MarkupTree.Selector.Basic
import MarkupTree.Selector.Names
import MarkupTree.Text.Lowercase

/-!
# The grammar of selectors

One reader for each rule of selector texts. The argument of `:not` is itself a
list of alternatives; the readers are given the reader for it, and `chains` closes the circle
to a depth that no text exceeds.
-/

namespace MarkupTree.Selector

open Reader

/-- The operator with the given first character. -/
def operatorOf? : Char → Option AttributeOperator
  | '~' => some .includes
  | '|' => some .dashMatch
  | '^' => some .begins
  | '$' => some .ends
  | '*' => some .holds
  | _ => none

/-- The pseudo-classes without an argument. -/
def plainPseudoClass? : String → Option Simple
  | "first-child" => some .firstChild
  | "last-child" => some .lastChild
  | "only-child" => some .onlyChild
  | "first-of-type" => some .firstOfType
  | "last-of-type" => some .lastOfType
  | "only-of-type" => some .onlyOfType
  | "empty" => some .empty
  | "root" => some .root
  | _ => none

/-- The pseudo-classes that count. -/
def countingPseudoClass? : String → Option (Nth → Simple)
  | "nth-child" => some .nthChild
  | "nth-last-child" => some .nthLastChild
  | "nth-of-type" => some .nthOfType
  | "nth-last-of-type" => some .nthLastOfType
  | _ => none

def combinatorOf? : Char → Option Combinator
  | '>' => some .child
  | '+' => some .adjacent
  | '~' => some .general
  | _ => none

variable {σ ε : Type} [Place σ ε]

def operator : Reader σ ε AttributeOperator := do
  let start ← get
  match ← bump, ← peek with
  | some '=', _ => return .equals
  | some c, some '=' =>
    match operatorOf? c with
    | some o =>
      let _ ← bump
      return o
    | none => failAt start .unknownOperator
  | _, _ => failAt start .unknownOperator

/-- A name in brackets, or a name, an operator and a value. -/
def attributeTest : Reader σ ε AttributeTest := do
  expect '['
  let _ ← skipSpace
  let named ← identifier
  let _ ← skipSpace
  if ← eat ']' then return ⟨named, .present, ""⟩
  let o ← operator
  let _ ← skipSpace
  let value ← stringOr name
  let _ ← skipSpace
  expect ']'
  return ⟨named, o, value⟩

/-- What stands before and behind the first letter `n` of a formula. -/
def cutFormula (cs : List Char) : Reader σ ε (Option (List Char × List Char)) := do
  if 'n' ∈ cs then
    let before := Text.utf8Length (cs.takeWhile (· != 'n'))
    return some (← sliceTo cs before, ← sliceFrom cs (before + 1))
  else return none

/-- The formula up to the next closing bracket, white space in it left out. -/
def nth : Reader σ ε Nth := do
  let start ← get
  let text ← ahead
  let length := Text.utf8Length (text.takeWhile (· != ')'))
  let formula := Text.lowerAscii ((← sliceTo text length).filter (!Text.isSpace ·))
  match Nth.ofCut? formula (← cutFormula formula) with
  | some f =>
    advance length
    return f
  | none => failAt start .invalidNth

/-- The pseudo-classes with an argument, as readers of it. -/
def pseudoClassWith? (inner : Reader σ ε (List Chain)) (name : String) :
    Option (Reader σ ε Simple) :=
  match countingPseudoClass? name with
  | some counts => some (return counts (← nth))
  | none =>
    if name = "not" then some (return .not (← inner))
    else if name = "contains" then some (return .contains (← stringOr identifier))
    else none

/-- The pseudo-class of a name that begins at `start`, from the end of the name on. -/
def pseudoClassNamed (inner : Reader σ ε (List Chain)) (start : σ) (name : String) :
    Reader σ ε Simple := do
  if ← eat '(' then
    let _ ← skipSpace
    match pseudoClassWith? inner name with
    | none => failAt start .unsupportedPseudoClass
    | some argument =>
      let simple ← argument
      let _ ← skipSpace
      expect ')'
      return simple
  else
    match plainPseudoClass? name with
    | some simple => return simple
    | none =>
      if (pseudoClassWith? inner name).isSome then failAt start .missingArgument
      else failAt start .unsupportedPseudoClass

def pseudoClass (inner : Reader σ ε (List Chain)) : Reader σ ε Simple := do
  let start ← get
  expect ':'
  if (← peek) = some ':' then failAt start .pseudoElement
  else pseudoClassNamed inner start (Text.lower (← identifier))

/-- One thing asked of an element, if its mark comes next. -/
def simpleStep (inner : Reader σ ε (List Chain)) : Reader σ ε (Option Simple) := do
  match ← peek with
  | some '.' =>
    let _ ← bump
    return some (.hasClass (← identifier))
  | some '#' =>
    let _ ← bump
    return some (.hasId (← name))
  | some '[' => return some (.hasAttribute (← attributeTest))
  | some ':' => return some (← pseudoClass inner)
  | _ => return none

/-- The name of a tag in lower case, if a name comes next. -/
def tagName : Reader σ ε (Option String) := do
  if beginsName (← peek) then return some (Text.lower (← identifier)) else return none

/-- What is asked of one element: a star or a name, and any number of simple selectors. -/
def part (inner : Reader σ ε (List Chain)) (relation : Combinator) : Reader σ ε Part := do
  let star ← eat '*'
  let tag? ← if star then pure none else tagName
  let simples ← many (simpleStep inner)
  if !star && tag?.isNone && simples.isEmpty then fail .unexpectedInside
  else return ⟨relation, tag?, simples⟩

/-- The text ahead ends, or an alternative ends before it. -/
def atBoundary : Option Char → Bool
  | none => true
  | some c => c = ',' || c = ')'

def requiredPart (inner : Reader σ ε (List Chain)) (relation : Combinator) :
    Reader σ ε Part := do
  if atBoundary (← peek) then fail .expectedSelector else part inner relation

/-- A combinator mark and white space behind it, if a mark comes next. -/
def combinator? : Reader σ ε (Option Combinator) := do
  match (← peek).bind combinatorOf? with
  | some relation =>
    let _ ← bump
    let _ ← skipSpace
    return some relation
  | none => return none

/-- A further part of a chain, unless the chain ends. -/
def partStep (inner : Reader σ ε (List Chain)) : Reader σ ε (Option Part) := do
  let spaced ← skipSpace
  if atBoundary (← peek) then return none
  match ← combinator? with
  | some relation => return some (← requiredPart inner relation)
  | none =>
    if spaced then return some (← requiredPart inner .descendant)
    else fail .unexpectedInside

/-- A chain of parts; without a mark at its beginning it begins with a descendant. -/
def chain (inner : Reader σ ε (List Chain)) : Reader σ ε Chain := do
  let _ ← skipSpace
  let relation ← combinator?
  let first ← requiredPart inner (relation.getD .descendant)
  return first :: (← many (partStep inner))

/-- A further chain behind a comma, if a comma comes next. -/
def chainStep (inner : Reader σ ε (List Chain)) : Reader σ ε (Option Chain) := do
  if ← eat ',' then
    let _ ← skipSpace
    return some (← chain inner)
  else return none

/-- Chains between commas, with `:not` nested at most `depth` times. -/
def chains : Nat → Reader σ ε (List Chain)
  | 0 => throw (Place.endless σ)
  | depth + 1 => do
    let first ← chain (chains depth)
    return first :: (← many (chainStep (chains depth)))

/-- A whole selector text. White space alone stands for the empty chain. -/
def whole : Reader σ ε (List Chain) := do
  let _ ← skipSpace
  if ← atEnd then return [[]]
  let read ← chains (← ahead).length
  if ← atEnd then return read else fail .unexpectedAfter

/-- The alternatives that a text lists. -/
def readChars (cs : List Char) : Except SyntaxError (List Chain) :=
  match whole.run cs with
  | .ok (chains, _) => .ok chains
  | .error fault => .error (fault.toError cs)

def parse (source : String) : Except SyntaxError Selector := do
  return { source, alternatives := ← readChars source.toList }

end MarkupTree.Selector
