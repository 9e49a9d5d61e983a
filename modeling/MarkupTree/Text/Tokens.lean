import MarkupTree.Text.Blank

/-!
# Tokens

A token list is a text such as the value of a `class` attribute, read as its maximal runs of
characters that are not white space.
-/

namespace MarkupTree.Text

/-- The words of `cs`, the first of which goes on the word that is already begun. The list `begun`
holds the last character of that word first. -/
def wordsFrom (begun : List Char) : List Char → List (List Char)
  | [] => if begun.isEmpty then [] else [begun.reverse]
  | c :: cs =>
    if isSpace c then
      if begun.isEmpty then wordsFrom [] cs else begun.reverse :: wordsFrom [] cs
    else wordsFrom (c :: begun) cs

def tokens (s : String) : List String := (wordsFrom [] s.toList).map String.ofList

/-- The first occurrence of every entry, in order. -/
def distinct {α : Type} [BEq α] : List α → List α
  | [] => []
  | a :: as => a :: (distinct as).filter (· != a)

/-- The tokens of a text, each where it occurs first. -/
def uniqueTokens (s : String) : List String := distinct (tokens s)

/-- The empty text is no token. -/
def hasToken (s token : String) : Bool := !token.isEmpty && (tokens s).contains token

theorem mem_distinct {α : Type} [BEq α] [LawfulBEq α] {a : α} :
    ∀ {as : List α}, a ∈ distinct as ↔ a ∈ as
  | [] => by simp [distinct]
  | b :: bs => by
    by_cases h : a = b
    · simp [distinct, h]
    · simp [distinct, mem_distinct, h]

theorem nodup_distinct {α : Type} [BEq α] [LawfulBEq α] : ∀ as : List α, (distinct as).Nodup
  | [] => .nil
  | a :: as => by simpa [distinct] using List.filter_sublist.nodup (nodup_distinct as)

end MarkupTree.Text
