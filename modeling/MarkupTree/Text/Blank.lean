/-!
# White space

The white space of a markup text is the Unicode property White_Space. Blank texts, trimming and
tokens all go by it.
-/

namespace MarkupTree.Text

/-- The property White_Space. -/
def isSpace (c : Char) : Bool :=
  let n := c.toNat
  (9 ≤ n && n ≤ 13) || n == 0x20 || n == 0x85 || n == 0xA0 || n == 0x1680 ||
    (0x2000 ≤ n && n ≤ 0x200A) || n == 0x2028 || n == 0x2029 || n == 0x202F || n == 0x205F ||
    n == 0x3000

/-- Empty, or white space only. -/
def isBlank (s : String) : Bool := s.toList.all isSpace

/-- The characters between the white space at both ends. -/
def trimChars (cs : List Char) : List Char :=
  ((cs.dropWhile isSpace).reverse.dropWhile isSpace).reverse

def trim (s : String) : String := String.ofList (trimChars s.toList)

end MarkupTree.Text
