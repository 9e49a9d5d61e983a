import MarkupTree.Json.Value

/-!
# Reading JSON

The grammar of JSON texts over lists of characters. A reader takes the characters ahead of it and
returns what it read with the characters that are left, or `none` if the text is no JSON text.
-/

namespace MarkupTree.Json

def isGap (c : Char) : Bool := c = ' ' || c = '\n' || c = '\t' || c = '\r'

def skipGap (cs : List Char) : List Char := cs.dropWhile isGap

def readDigits (cs : List Char) : Option (List Char × List Char) :=
  let (ds, rest) := cs.span Char.isDigit
  if ds.isEmpty then none else some (ds, rest)

/-- A digit zero, or digits that do not begin with zero. -/
def readWhole (cs : List Char) : Option (List Char × List Char) := do
  let (ds, rest) ← readDigits cs
  if ds.head? = some '0' && ds.length ≠ 1 then none else some (ds, rest)

def readFraction : List Char → Option (List Char × List Char)
  | '.' :: cs => do
    let (ds, rest) ← readDigits cs
    some ('.' :: ds, rest)
  | cs => some ([], cs)

/-- An exponent mark, a sign or none, and digits; or nothing. -/
def readExponent : List Char → Option (List Char × List Char)
  | c :: cs =>
    if c = 'e' || c = 'E' then do
      let (sign, cs) := match cs with
        | '+' :: cs => (['+'], cs)
        | '-' :: cs => (['-'], cs)
        | cs => ([], cs)
      let (ds, rest) ← readDigits cs
      some (c :: sign ++ ds, rest)
    else some ([], c :: cs)
  | [] => some ([], [])

def readNumber (cs : List Char) : Option (List Char × List Char) := do
  let (sign, cs) := match cs with
    | '-' :: cs => (['-'], cs)
    | cs => ([], cs)
  let (whole, cs) ← readWhole cs
  let (fraction, cs) ← readFraction cs
  let (exponent, cs) ← readExponent cs
  some (sign ++ whole ++ fraction ++ exponent, cs)

/-- A piece of a string literal: a character, or the 16-bit unit of a numbered escape. -/
inductive Piece where
  | char (c : Char)
  | unit (n : Nat)

/-- The unit written with four digits. -/
def unitValue? (a b c d : Char) : Option Nat :=
  if [a, b, c, d].all Text.isHexDigit then some (Text.hexValue [a, b, c, d]) else none

/-- The character that a one-letter escape stands for. -/
def unescape? : Char → Option Char
  | '"' => some '"'
  | '\\' => some '\\'
  | '/' => some '/'
  | 'b' => some '\x08'
  | 'f' => some '\x0c'
  | 'n' => some '\n'
  | 'r' => some '\r'
  | 't' => some '\t'
  | _ => none

/-- The pieces of a string literal after its opening quote, up to and without the closing one. -/
def readPieces : List Char → Option (List Piece × List Char)
  | '"' :: cs => some ([], cs)
  | '\\' :: 'u' :: a :: b :: c :: d :: cs => do
    let n ← unitValue? a b c d
    let (pieces, rest) ← readPieces cs
    some (.unit n :: pieces, rest)
  | '\\' :: e :: cs => do
    let c ← unescape? e
    let (pieces, rest) ← readPieces cs
    some (.char c :: pieces, rest)
  | c :: cs =>
    if c.toNat < 0x20 then none
    else do
      let (pieces, rest) ← readPieces cs
      some (.char c :: pieces, rest)
  | [] => none

/-- The text of the pieces, if every surrogate is half of a pair. -/
def joinPieces : List Piece → Option (List Char)
  | [] => some []
  | .char c :: ps => do some (c :: (← joinPieces ps))
  | [.unit n] => if 0xD800 ≤ n && n < 0xE000 then none else some [Char.ofNat n]
  | .unit n :: p :: ps =>
    if 0xD800 ≤ n && n < 0xE000 then
      match p with
      | .unit m =>
        if n < 0xDC00 && 0xDC00 ≤ m && m < 0xE000 then do
          some (Char.ofNat (0x10000 + (n - 0xD800) * 0x400 + (m - 0xDC00)) :: (← joinPieces ps))
        else none
      | .char _ => none
    else do some (Char.ofNat n :: (← joinPieces (p :: ps)))

/-- A string literal after its opening quote. -/
def readLiteral (cs : List Char) : Option (Option String × List Char) := do
  let (pieces, rest) ← readPieces cs
  some ((joinPieces pieces).map String.ofList, rest)

mutual

/-- A value. Every value, entry or member read on the way uses one unit of `fuel`. -/
def readValue : Nat → List Char → Option (Json × List Char)
  | 0, _ => none
  | fuel + 1, cs =>
    match skipGap cs with
    | 'n' :: 'u' :: 'l' :: 'l' :: cs => some (.null, cs)
    | 't' :: 'r' :: 'u' :: 'e' :: cs => some (.bool true, cs)
    | 'f' :: 'a' :: 'l' :: 's' :: 'e' :: cs => some (.bool false, cs)
    | '"' :: cs => do
      let (literal, rest) ← readLiteral cs
      some (.string literal, rest)
    | '[' :: cs =>
      match skipGap cs with
      | ']' :: cs => some (.array [], cs)
      | cs => do
        let (items, rest) ← readItems fuel cs
        some (.array items, rest)
    | '\x7b' :: cs =>
      match skipGap cs with
      | '\x7d' :: cs => some (.object [], cs)
      | cs => do
        let (members, rest) ← readMembers fuel cs
        some (.object members, rest)
    | cs => do
      let (spelling, rest) ← readNumber cs
      some (.number (String.ofList spelling), rest)

/-- The entries of a list from one entry on, with the closing bracket. -/
def readItems : Nat → List Char → Option (List Json × List Char)
  | 0, _ => none
  | fuel + 1, cs => do
    let (item, cs) ← readValue fuel cs
    match skipGap cs with
    | ',' :: cs =>
      let (items, rest) ← readItems fuel cs
      some (item :: items, rest)
    | ']' :: rest => some ([item], rest)
    | _ => none

/-- The members of an object from one member on, with the closing brace. -/
def readMembers : Nat → List Char → Option (List (Option String × Json) × List Char)
  | 0, _ => none
  | fuel + 1, cs =>
    match skipGap cs with
    | '"' :: cs => do
      let (key, cs) ← readLiteral cs
      match skipGap cs with
      | ':' :: cs =>
        let (value, cs) ← readValue fuel cs
        match skipGap cs with
        | ',' :: cs =>
          let (members, rest) ← readMembers fuel cs
          some ((key, value) :: members, rest)
        | '\x7d' :: rest => some ([(key, value)], rest)
        | _ => none
      | _ => none
    | _ => none

end

/-- The value of a whole text. Two units of fuel for each character suffice, because a value and
an entry or member together take at least one character. -/
def readAll (cs : List Char) : Option Json := do
  let (value, rest) ← readValue (2 * cs.length + 2) cs
  if (skipGap rest).isEmpty then some value else none

def parse? (s : String) : Option Json := readAll s.toList

end MarkupTree.Json
