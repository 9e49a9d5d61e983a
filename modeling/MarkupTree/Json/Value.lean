import MarkupTree.Text.Digits

/-!
# JSON values

A JSON text as a value. Numbers keep their spelling, members keep their order and repetitions, and
a string literal that names half of a surrogate pair is kept as a literal without a text: a reader
of records has to tell all of these apart.
-/

namespace MarkupTree

inductive Json where
  | null
  | bool (b : Bool)
  /-- A number as it is spelled. -/
  | number (spelling : String)
  /-- A string literal: its text, or `none` if it names half of a surrogate pair. -/
  | string (literal : Option String)
  | array (items : List Json)
  /-- The members in written order, with their keys as string literals. -/
  | object (members : List (Option String × Json))
deriving Inhabited

namespace Json

def text (s : String) : Json := .string (some s)

def record (members : List (String × Json)) : Json := .object (members.map fun m => (some m.1, m.2))

def text? : Json → Option String
  | .string literal => literal
  | _ => none

def bool? : Json → Option Bool
  | .bool b => some b
  | _ => none

def items? : Json → Option (List Json)
  | .array items => some items
  | _ => none

/-- A number spelled with digits alone. -/
def natural? : Json → Option Nat
  | .number spelling =>
    if spelling.toList.all Char.isDigit then some (Text.decimalValue spelling.toList) else none
  | _ => none

/-- A number spelled with digits alone, or with a minus sign and digits. -/
def integer? : Json → Option Int
  | .number spelling =>
    match spelling.toList with
    | '-' :: cs => if cs.all Char.isDigit then some (-(Text.decimalValue cs : Int)) else none
    | cs => if cs.all Char.isDigit then some (Text.decimalValue cs : Int) else none
  | _ => none

/-- The fields of a record with the given field names. A record is written as an object, in which
other keys are ignored and a field occurs at most once, or as a list of the fields in order, from
which fields at the end may be missing. -/
def fields? (names : List String) : Json → Option (List (Option Json))
  | .object members =>
    if members.all (·.1.isSome) && names.all (fun n => members.countP (·.1 == some n) ≤ 1) then
      some (names.map fun n => (members.find? (·.1 == some n)).map (·.2))
    else none
  | .array items =>
    if items.length ≤ names.length then some (names.mapIdx fun i _ => items[i]?) else none
  | _ => none

end Json

end MarkupTree
