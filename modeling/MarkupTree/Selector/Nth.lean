import MarkupTree.Text.Digits

/-!
# Places in a row

The formula `an+b` of the counting pseudo-classes stands for the places `a·n + b` with `n ≥ 0`.
-/

namespace MarkupTree

structure Nth where
  a : Int32
  b : Int32
deriving DecidableEq, Repr

namespace Nth

/-- The place is `a·n + b` for a natural number `n`, computed in 64-bit words. -/
def accepts (f : Nth) (place : Nat) : Bool :=
  let place := Int64.ofNat place
  let a := f.a.toInt64
  let b := f.b.toInt64
  if a = 0 then place = b
  else
    let distance := place - b
    distance % a = 0 && 0 ≤ distance / a

/-- A word with the given value, if there is one. -/
def word? (n : Int) : Option Int32 :=
  if -2147483648 ≤ n ∧ n ≤ 2147483647 then some (Int32.ofInt n) else none

/-- Digits alone, at least one. -/
def unsigned? (cs : List Char) : Option Nat :=
  if !cs.isEmpty && cs.all Char.isDigit then some (Text.decimalValue cs) else none

/-- At most one sign, then digits. -/
def signed? : List Char → Option Int32
  | '+' :: cs => do word? (← unsigned? cs)
  | '-' :: cs => do word? (-(← unsigned? cs : Nat))
  | cs => do word? (← unsigned? cs)

/-- What stands before the letter `n`: without digits it is one, with the sign that is there. -/
def factor? : List Char → Option Int32
  | [] => some 1
  | ['+'] => some 1
  | ['-'] => some (-1)
  | cs => signed? cs

/-- What stands behind the letter `n`: nothing, or a number with its sign. -/
def addend? : List Char → Option Int32
  | [] => some 0
  | '+' :: cs => signed? ('+' :: cs)
  | '-' :: cs => signed? ('-' :: cs)
  | _ => none

/-- Reads a formula without white space and in lower case: `odd`, `even`, a number, or `an+b`. With
the formula comes what stands before and behind its first letter `n`, if it has one. -/
def ofCut? (cs : List Char) (cut? : Option (List Char × List Char)) : Option Nth :=
  if cs = ['o', 'd', 'd'] then some ⟨2, 1⟩
  else if cs = ['e', 'v', 'e', 'n'] then some ⟨2, 0⟩
  else match cut? with
    | none => do some ⟨0, ← signed? cs⟩
    | some (factor, addend) => do some ⟨← factor? factor, ← addend? addend⟩

/-- What stands before and behind the first letter `n`. -/
def cut? (cs : List Char) : Option (List Char × List Char) :=
  match cs.dropWhile (· != 'n') with
  | [] => none
  | _ :: addend => some (cs.takeWhile (· != 'n'), addend)

def ofChars? (cs : List Char) : Option Nth := ofCut? cs (cut? cs)

end Nth

end MarkupTree
