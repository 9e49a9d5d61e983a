import MarkupTree.Text.Blank
import MarkupTree.Text.Bytes

/-!
# Errors in selector texts

A reader that fails says what is wrong and which part of the text it stood before. From that part
come the place of the error, counted in bytes of UTF-8, and the fragment shown in the message.
-/

namespace MarkupTree

inductive Complaint where
  | expected (c : Char)
  | expectedSelector
  | expectedIdentifier
  | expectedName
  | unexpectedInside
  | unexpectedAfter
  | unknownOperator
  | pseudoElement
  | unsupportedPseudoClass
  | missingArgument
  | invalidNth
  | unterminatedString
  | incompleteEscape
  | invalidEscape
deriving DecidableEq, Repr

def Complaint.message : Complaint → String
  | .expected c => s!"expected '{c}'"
  | .expectedSelector => "expected a selector"
  | .expectedIdentifier => "expected an identifier"
  | .expectedName => "expected a name"
  | .unexpectedInside => "unexpected character in selector"
  | .unexpectedAfter => "unexpected character after selector"
  | .unknownOperator => "unknown attribute operator"
  | .pseudoElement => "pseudo-elements are not supported"
  | .unsupportedPseudoClass => "unsupported pseudo-class"
  | .missingArgument => "pseudo-class requires an argument"
  | .invalidNth => "invalid nth expression"
  | .unterminatedString => "unterminated string"
  | .incompleteEscape => "incomplete escape"
  | .invalidEscape => "invalid escape"

/-- A complaint about the text that begins with `rest`. -/
structure Fault where
  complaint : Complaint
  rest : List Char
deriving DecidableEq, Repr

structure SyntaxError where
  complaint : Complaint
  fragment : String
  /-- The number of bytes before the fault. -/
  position : Nat
deriving DecidableEq, Repr

namespace Fault

/-- The text at a fault up to the first white space behind its first character. -/
def fragment (f : Fault) : String :=
  match f.rest with
  | [] => "end of selector"
  | c :: cs => String.ofList (c :: cs.takeWhile (!Text.isSpace ·))

/-- A fault as an error in the text `cs`. -/
def toError (cs : List Char) (f : Fault) : SyntaxError :=
  ⟨f.complaint, f.fragment, Text.utf8Length cs - Text.utf8Length f.rest⟩

end Fault

def SyntaxError.message (e : SyntaxError) : String :=
  s!"Selector syntax error at {e.position}: {e.complaint.message} (near '{e.fragment}')"

end MarkupTree
