import MarkupTree.Json.Value

/-!
# Writing JSON

The compact form of a JSON value: no white space between the tokens, and in string literals only
the escapes that JSON demands.
-/

namespace MarkupTree.Json

/-- A quote, a backslash and the controls are escaped; all other characters stand for themselves. -/
def escapeChar (c : Char) : List Char :=
  match c with
  | '"' => ['\\', '"']
  | '\\' => ['\\', '\\']
  | '\x08' => ['\\', 'b']
  | '\x0c' => ['\\', 'f']
  | '\n' => ['\\', 'n']
  | '\r' => ['\\', 'r']
  | '\t' => ['\\', 't']
  | c =>
    if c.toNat < 0x20 then
      ['\\', 'u', '0', '0', (c.toNat / 16).digitChar, (c.toNat % 16).digitChar]
    else [c]

/-- A string literal, followed by `rest`. A literal without a text is written as half of a surrogate
pair. -/
def writeLiteral (literal : Option String) (rest : List Char) : List Char :=
  match literal with
  | some s => '"' :: (s.toList.flatMap escapeChar ++ '"' :: rest)
  | none => ['"', '\\', 'u', 'd', '8', '0', '0', '"'] ++ rest

mutual

/-- A value, followed by `rest`. -/
def write : Json → List Char → List Char
  | .null, rest => 'n' :: 'u' :: 'l' :: 'l' :: rest
  | .bool true, rest => 't' :: 'r' :: 'u' :: 'e' :: rest
  | .bool false, rest => 'f' :: 'a' :: 'l' :: 's' :: 'e' :: rest
  | .number spelling, rest => spelling.toList ++ rest
  | .string literal, rest => writeLiteral literal rest
  | .array [], rest => '[' :: ']' :: rest
  | .array (item :: items), rest => '[' :: write item (writeItems items rest)
  | .object [], rest => '\x7b' :: '\x7d' :: rest
  | .object ((key, value) :: members), rest =>
    '\x7b' :: writeLiteral key (':' :: write value (writeMembers members rest))

/-- The entries after the first, with the closing bracket. -/
def writeItems : List Json → List Char → List Char
  | [], rest => ']' :: rest
  | item :: items, rest => ',' :: write item (writeItems items rest)

/-- The members after the first, with the closing brace. -/
def writeMembers : List (Option String × Json) → List Char → List Char
  | [], rest => '\x7d' :: rest
  | (key, value) :: members, rest =>
    ',' :: writeLiteral key (':' :: write value (writeMembers members rest))

end

def render (v : Json) : String := String.ofList (write v [])

end MarkupTree.Json
