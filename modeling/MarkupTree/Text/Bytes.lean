/-!
# Bytes

Texts as bytes of UTF-8. A text can be cut only between two characters.
-/

namespace MarkupTree.Text

def utf8Length (cs : List Char) : Nat := cs.foldr (fun c n => c.utf8Size + n) 0

/-- The first `n` bytes, if a character ends there. -/
def takeBytes? : List Char → Nat → Option (List Char)
  | [], n => if n = 0 then some [] else none
  | c :: cs, n =>
    if n = 0 then some []
    else if c.utf8Size ≤ n then (takeBytes? cs (n - c.utf8Size)).map (c :: ·)
    else none

/-- What follows the first `n` bytes, if a character ends there. -/
def dropBytes? : List Char → Nat → Option (List Char)
  | [], n => if n = 0 then some [] else none
  | c :: cs, n =>
    if n = 0 then some (c :: cs)
    else if c.utf8Size ≤ n then dropBytes? cs (n - c.utf8Size)
    else none

@[simp] theorem utf8Length_nil : utf8Length [] = 0 := rfl

@[simp] theorem utf8Length_cons (c : Char) (cs : List Char) :
    utf8Length (c :: cs) = c.utf8Size + utf8Length cs := rfl

@[simp] theorem utf8Length_append (cs ds : List Char) :
    utf8Length (cs ++ ds) = utf8Length cs + utf8Length ds := by
  induction cs with
  | nil => simp
  | cons c cs ih => simp [ih, Nat.add_assoc]

@[simp] theorem dropBytes?_zero (cs : List Char) : dropBytes? cs 0 = some cs := by
  cases cs <;> rfl

theorem takeBytes?_append (cs ds : List Char) :
    takeBytes? (cs ++ ds) (utf8Length cs) = some cs := by
  induction cs with
  | nil => cases ds <;> rfl
  | cons c cs ih =>
    have hc := c.utf8Size_pos
    rw [utf8Length_cons, List.cons_append, takeBytes?, if_neg (by omega),
      if_pos (Nat.le_add_right _ _), Nat.add_sub_cancel_left, ih]
    rfl

theorem dropBytes?_append (cs ds : List Char) :
    dropBytes? (cs ++ ds) (utf8Length cs) = some ds := by
  induction cs with
  | nil => exact dropBytes?_zero ds
  | cons c cs ih =>
    have hc := c.utf8Size_pos
    rw [utf8Length_cons, List.cons_append, dropBytes?, if_neg (by omega),
      if_pos (Nat.le_add_right _ _), Nat.add_sub_cancel_left, ih]

end MarkupTree.Text
