/-!
# Parts of texts

A text begins with, ends with or holds another text.
-/

namespace MarkupTree.Text

def occursIn (part : List Char) : List Char → Bool
  | [] => part.isEmpty
  | c :: cs => part.isPrefixOf (c :: cs) || occursIn part cs

def startsWith (s part : String) : Bool := part.toList.isPrefixOf s.toList

def endsWith (s part : String) : Bool := part.toList.isSuffixOf s.toList

def holds (s part : String) : Bool := occursIn part.toList s.toList

theorem occursIn_iff {part : List Char} : ∀ cs : List Char, occursIn part cs = true ↔ part <:+: cs
  | [] => by simp [occursIn]
  | c :: cs => by simp [occursIn, List.infix_cons_iff, occursIn_iff cs]

theorem startsWith_iff {s part : String} : startsWith s part = true ↔ part.toList <+: s.toList :=
  List.isPrefixOf_iff_prefix

theorem endsWith_iff {s part : String} : endsWith s part = true ↔ part.toList <:+ s.toList :=
  List.isSuffixOf_iff_suffix

theorem holds_iff {s part : String} : holds s part = true ↔ part.toList <:+: s.toList :=
  occursIn_iff _

end MarkupTree.Text
