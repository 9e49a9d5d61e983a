import MarkupTree.Selector.Nth

/-!
# Places computed step by step

The test of a place as a run of operations on 64-bit words. An operation whose result is no word,
or that has no result, ends the run with a fault.
-/

namespace MarkupTree

inductive WordFault where
  | overflow
  | zeroDivisor
deriving DecidableEq, Repr

namespace Word

/-- The word with the given value. -/
def exactly (n : Int) : Except WordFault Int64 :=
  if -9223372036854775808 ≤ n ∧ n ≤ 9223372036854775807 then .ok (Int64.ofInt n)
  else .error .overflow

def difference (x y : Int64) : Except WordFault Int64 := exactly (x.toInt - y.toInt)

/-- Rounded toward zero. -/
def quotient (x y : Int64) : Except WordFault Int64 :=
  if y = 0 then .error .zeroDivisor else exactly (x.toInt.tdiv y.toInt)

/-- What a quotient leaves over, with the sign of `x`. It comes with the quotient, so where the
quotient is no word there is no remainder either, though its value would be zero. -/
def remainder (x y : Int64) : Except WordFault Int64 := do
  let _ ← quotient x y
  exactly (x.toInt.tmod y.toInt)

end Word

/-- `Nth.accepts` with the fault of every operation. -/
def Nth.compute (f : Nth) (place : Nat) : Except WordFault Bool := do
  let place := Int64.ofNat place
  let a := f.a.toInt64
  let b := f.b.toInt64
  if a = 0 then return place = b
  else
    let distance ← Word.difference place b
    if (← Word.remainder distance a) = 0 then return 0 ≤ (← Word.quotient distance a)
    else return false

end MarkupTree
