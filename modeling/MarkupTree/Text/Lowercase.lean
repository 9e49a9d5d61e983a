import MarkupTree.Text.LetterCase

/-!
# Lower case

The full lower-case mapping of the Unicode standard without locale rules. Two letters need more
than a table: U+0130 becomes two characters, and a capital sigma becomes a final sigma at the end
of a word.
-/

namespace MarkupTree.Text

/-- The lower-case form of one character, its surroundings left aside. -/
def lowerChar (c : Char) : List Char :=
  if c.toNat = 0x130 then ['i', Char.ofNat 0x307]
  else match lowerRuns.findSome? (·.image? c.toNat) with
    | some n => [Char.ofNat n]
    | none => [c]

/-- The nearest character that is not Case_Ignorable is Cased. -/
def meetsCased (cs : List Char) : Bool :=
  match cs.dropWhile caseIgnorablePoints.contains with
  | [] => false
  | c :: _ => casedPoints.contains c

/-- A sigma is final if a letter comes before it and none after it. -/
def lowerSigma (before after : List Char) : Char :=
  if meetsCased before && !meetsCased after then 'ς' else 'σ'

/-- Lower case of a text whose part `before` (last character first) has been read already. -/
def lowerFrom (before : List Char) : List Char → List Char
  | [] => []
  | c :: cs =>
    (if c = 'Σ' then [lowerSigma before cs] else lowerChar c) ++ lowerFrom (c :: before) cs

def lower (s : String) : String := String.ofList (lowerFrom [] s.toList)

def lowerAscii (cs : List Char) : List Char := cs.map Char.toLower

theorem lowerChar_ofNat : ∀ n < 128, lowerChar (Char.ofNat n) = [(Char.ofNat n).toLower] := by
  decide +kernel

theorem lowerChar_of_lt {c : Char} (h : c.toNat < 128) : lowerChar c = [c.toLower] := by
  simpa using lowerChar_ofNat c.toNat h

end MarkupTree.Text
