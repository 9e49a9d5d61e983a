import MarkupTree.Sequence

/-!
# Pipelines on numbers

A small language of lazy computations on integers: a source, steps and an ending question. Each
item of the source and each call of a function is an event, so that the trace of a run shows what
was computed and when.
-/

namespace MarkupTree.Numbers

/-- What a run shows: the source gives a number, or a function is called with one. -/
inductive Event where
  | source (n : Int)
  | add (n : Int)
  | mul (n : Int)
  | mod (n : Int)
  | half (n : Int)
  | copies (n : Int)
  | upto (n : Int)
  | sub (n : Int)
  | fold (n : Int)
  | iter (n : Int)
deriving DecidableEq, Repr

def Event.text : Event → String
  | .source n => s!"src {n}"
  | .add n => s!"add {n}"
  | .mul n => s!"mul {n}"
  | .mod n => s!"mod {n}"
  | .half n => s!"half {n}"
  | .copies n => s!"repeat {n}"
  | .upto n => s!"upto {n}"
  | .sub n => s!"sub {n}"
  | .fold n => s!"fold {n}"
  | .iter n => s!"iter {n}"

inductive Step where
  | add (k : Int)
  | mul (k : Int)
  /-- The numbers with remainder `r` on division by `m`. -/
  | mod (m r : Int)
  /-- The halves of the even numbers. -/
  | half
  | copies (k : Nat)
  /-- The numbers from 1 to every number. -/
  | upto
  | reverse
  | rebuild
deriving DecidableEq, Repr

def Step.stages : Step → List (Sequence.Stage Event Int)
  | .add k => [.observe .add, .map (· + k)]
  | .mul k => [.observe .mul, .map (· * k)]
  | .mod m r => [.observe .mod, .filter fun n => n % m == r]
  | .half => [.observe .half, .filterMap fun n => if n % 2 = 0 then some (n / 2) else none]
  | .copies k => [.observe .copies, .flatMap fun n => .replicate n k]
  | .upto => [.observe .upto, .flatMap fun n => (Sequence.countUp 1 n.toNat).observe .sub]
  | .reverse => [.reverse]
  | .rebuild => [.rebuild]

/-- The question at the end of a pipeline. -/
inductive Ending where
  | toList
  | count
  | first
  | last
  | nth (k : Nat)
  | sum
  /-- The numbers as one text, each in angle brackets. -/
  | join
  /-- Every number is looked at. -/
  | iter
  | pull (k : Nat)
  /-- The sequence is given up unpulled. -/
  | drop
deriving DecidableEq, Repr

inductive Answer where
  | nothing
  | number (n : Int)
  | numbers (ns : List (Option Int))
  | text (s : String)
deriving DecidableEq, Repr

def Answer.ofOption : Option Int → Answer
  | some n => .number n
  | none => .nothing

def Ending.ask (s : Sequence Event Int) : Ending → List Event × Answer
  | .toList => s.toList.map id fun ns => .numbers (ns.map some)
  | .count => s.count.map id fun (n : Nat) => .number n
  | .first => s.first?.map id .ofOption
  | .last => s.last?.map id .ofOption
  | .nth k => (s.nth? k).map id .ofOption
  | .sum => ((s.observe .fold).fold (· + ·) 0).map id .number
  | .join => (s.fold (fun text n => text ++ s!"<{n}>") "").map id .text
  | .iter => ((s.observe .iter).fold (fun _ _ => ()) ()).map id fun _ => .nothing
  | .pull k => (s.pulls k).map id .numbers
  | .drop => ([], .nothing)

/-- The trace and the answer of a computation. -/
def run (items : List Int) (steps : List Step) (ending : Ending) : List Event × Answer :=
  let source := (Sequence.ofList items).observe Event.source
  let (built, s) := source.through (steps.flatMap Step.stages)
  let (asked, answer) := ending.ask s
  (built ++ asked, answer)

end MarkupTree.Numbers
