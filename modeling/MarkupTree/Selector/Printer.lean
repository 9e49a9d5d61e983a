import MarkupTree.Selector.Basic
import MarkupTree.Selector.Names

/-!
# Writing selectors

A text for every list of alternatives. A letter of a name stands for itself, and any other
character is written as its code point. Values stand between quotes, formulas are written out in
full, and a part begins with a name or a star.
-/

namespace MarkupTree.Selector

/-- The letters that stand for themselves in names, at the beginning of a name as well. -/
def isPlainLetter (c : Char) : Bool := isAscii c && (isNameStart c && isNameChar c)

/-- The last six hexadecimal digits of a number. -/
def sixDigits (n : Nat) : List Char :=
  [n / 0x100000 % 16, n / 0x10000 % 16, n / 0x1000 % 16, n / 0x100 % 16, n / 0x10 % 16, n % 16].map
    Nat.digitChar

/-- A character of a name. The space behind a code point belongs to it. -/
def writeLetter (c : Char) : List Char :=
  if isPlainLetter c then [c] else '\\' :: (sixDigits c.toNat ++ [' '])

def writeName (s : String) : List Char := s.toList.flatMap writeLetter

/-- A character of a string between quotes. -/
def writeQuoted (c : Char) : List Char := if c = '"' ∨ c = '\\' then ['\\', c] else [c]

def writeString (s : String) : List Char := '"' :: (s.toList.flatMap writeQuoted ++ ['"'])

def writeOperator : AttributeOperator → List Char
  | .present => []
  | .equals => ['=']
  | .includes => ['~', '=']
  | .dashMatch => ['|', '=']
  | .begins => ['^', '=']
  | .ends => ['$', '=']
  | .holds => ['*', '=']

def writeTest (test : AttributeTest) : List Char :=
  '[' :: (writeName test.name ++
    if test.operator = .present then [']']
    else writeOperator test.operator ++ (writeString test.value ++ [']']))

/-- A number with its sign. -/
def writeSigned (n : Int32) : List Char :=
  (if n.toInt < 0 then '-' else '+') :: Nat.toDigits 10 n.toInt.natAbs

def writeFormula (f : Nth) : List Char := writeSigned f.a ++ 'n' :: writeSigned f.b

def writePseudoClass (name : String) : List Char := ':' :: writeName name

def writePseudoClassWith (name : String) (argument : List Char) : List Char :=
  ':' :: (writeName name ++ '(' :: (argument ++ [')']))

/-- What stands before a further part of a chain. -/
def markOf : Combinator → Char
  | .descendant => ' '
  | .child => '>'
  | .adjacent => '+'
  | .general => '~'

/-- What stands before the first part of a chain. -/
def leadOf : Combinator → List Char
  | .descendant => []
  | relation => [markOf relation]

mutual

def writeSimple : Simple → List Char
  | .hasClass name => '.' :: writeName name
  | .hasId name => '#' :: writeName name
  | .hasAttribute test => writeTest test
  | .firstChild => writePseudoClass "first-child"
  | .lastChild => writePseudoClass "last-child"
  | .onlyChild => writePseudoClass "only-child"
  | .firstOfType => writePseudoClass "first-of-type"
  | .lastOfType => writePseudoClass "last-of-type"
  | .onlyOfType => writePseudoClass "only-of-type"
  | .nthChild f => writePseudoClassWith "nth-child" (writeFormula f)
  | .nthLastChild f => writePseudoClassWith "nth-last-child" (writeFormula f)
  | .nthOfType f => writePseudoClassWith "nth-of-type" (writeFormula f)
  | .nthLastOfType f => writePseudoClassWith "nth-last-of-type" (writeFormula f)
  | .empty => writePseudoClass "empty"
  | .root => writePseudoClass "root"
  | .not alternatives => writePseudoClassWith "not" (writeChains alternatives)
  | .contains text => writePseudoClassWith "contains" (writeString text)

def writePart : Part → List Char
  | ⟨_, tag?, simples⟩ => tag?.elim ['*'] writeName ++ writeSimples simples

def writeSimples : List Simple → List Char
  | [] => []
  | simple :: simples => writeSimple simple ++ writeSimples simples

/-- The further parts of a chain, each behind the mark of its combinator. -/
def writeParts : List Part → List Char
  | [] => []
  | part :: parts => markOf part.relation :: (writePart part ++ writeParts parts)

def writeChain : List Part → List Char
  | [] => []
  | first :: parts => leadOf first.relation ++ (writePart first ++ writeParts parts)

def writeChains : List (List Part) → List Char
  | [] => []
  | [chain] => writeChain chain
  | chain :: next :: chains => writeChain chain ++ ',' :: writeChains (next :: chains)

end

/-- A text that lists the given alternatives. -/
def write (alternatives : List Chain) : String := String.ofList (writeChains alternatives)

end MarkupTree.Selector
