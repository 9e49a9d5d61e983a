/-!
# Lazy sequences

A sequence gives its items one at a time. On the way to an item it goes through events, the things
that can be seen to happen, such as a source being asked or a function being called. Nothing
happens before the sequence is pulled: no function that a step is made of is called before that,
and a pull goes through no event behind the item it gives.

A question put to a sequence is answered together with the events that the answer takes.
-/

namespace MarkupTree

/-- A sequence with events of type `ε` and items of type `α`. -/
inductive Sequence (ε α : Type) where
  | done
  | event (e : ε) (next : Unit → Sequence ε α)
  | item (a : α) (next : Unit → Sequence ε α)
  /-- Work that waits for a pull and that nobody sees. -/
  | later (next : Unit → Sequence ε α)

namespace Sequence

variable {ε α β : Type}

def ofList : List α → Sequence ε α
  | [] => done
  | a :: as => item a fun _ => ofList as

def replicate (a : α) : Nat → Sequence ε α
  | 0 => done
  | k + 1 => item a fun _ => replicate a k

def countUp (n : Int) : Nat → Sequence ε Int
  | 0 => done
  | k + 1 => item n fun _ => countUp (n + 1) k

/-- The same items, with an event before each of them. -/
def observe (f : α → ε) : Sequence ε α → Sequence ε α
  | done => done
  | event e next => event e fun _ => (next ()).observe f
  | item a next => event (f a) fun _ => item a fun _ => (next ()).observe f
  | later next => later fun _ => (next ()).observe f

def map (f : α → β) : Sequence ε α → Sequence ε β
  | done => done
  | event e next => event e fun _ => (next ()).map f
  | item a next => later fun _ => item (f a) fun _ => (next ()).map f
  | later next => later fun _ => (next ()).map f

def filterMap (f : α → Option β) : Sequence ε α → Sequence ε β
  | done => done
  | event e next => event e fun _ => (next ()).filterMap f
  | item a next => later fun _ =>
    match f a with
    | some b => item b fun _ => (next ()).filterMap f
    | none => (next ()).filterMap f
  | later next => later fun _ => (next ()).filterMap f

def filter (p : α → Bool) : Sequence ε α → Sequence ε α
  | done => done
  | event e next => event e fun _ => (next ()).filter p
  | item a next => later fun _ =>
    if p a then item a fun _ => (next ()).filter p
    else (next ()).filter p
  | later next => later fun _ => (next ()).filter p

/-- One sequence and then another, which is begun when the first is exhausted. -/
def append : Sequence ε α → (Unit → Sequence ε α) → Sequence ε α
  | done, rest => later rest
  | event e next, rest => event e fun _ => (next ()).append rest
  | item a next, rest => item a fun _ => (next ()).append rest
  | later next, rest => later fun _ => (next ()).append rest

/-- The items of the sequences that `f` makes of the items, each begun when its turn comes. -/
def flatMap (f : α → Sequence ε β) : Sequence ε α → Sequence ε β
  | done => done
  | event e next => event e fun _ => (next ()).flatMap f
  | item a next => later fun _ => (f a).append fun _ => (next ()).flatMap f
  | later next => later fun _ => (next ()).flatMap f

/-- The next item with the sequence behind it, if there is one. -/
def pull : Sequence ε α → List ε × Option (α × Sequence ε α)
  | done => ([], none)
  | event e next =>
    let (events, answer) := (next ()).pull
    (e :: events, answer)
  | item a next => ([], some (a, next ()))
  | later next => (next ()).pull

/-- The answers to `k` pulls. An exhausted sequence has no item to give. -/
def pulls : Nat → Sequence ε α → List ε × List (Option α)
  | 0, _ => ([], [])
  | k + 1, s =>
    match s.pull with
    | (events, none) => (events, List.replicate (k + 1) none)
    | (events, some (a, rest)) =>
      let (events', answers) := rest.pulls k
      (events ++ events', some a :: answers)

def fold (f : β → α → β) (b : β) : Sequence ε α → List ε × β
  | done => ([], b)
  | event e next =>
    let (events, answer) := (next ()).fold f b
    (e :: events, answer)
  | item a next => (next ()).fold f (f b a)
  | later next => (next ()).fold f b

def toList (s : Sequence ε α) : List ε × List α :=
  let (events, reversed) := s.fold (fun as a => a :: as) []
  (events, reversed.reverse)

def count (s : Sequence ε α) : List ε × Nat := s.fold (fun n _ => n + 1) 0

def first? (s : Sequence ε α) : List ε × Option α :=
  let (events, answer) := s.pull
  (events, answer.map (·.1))

def last? (s : Sequence ε α) : List ε × Option α := s.fold (fun _ a => some a) none

/-- The item number `k`, counted from 1. It takes `k` pulls, and none if `k` is 0. -/
def nth? : Nat → Sequence ε α → List ε × Option α
  | 0, _ => ([], none)
  | 1, s => s.first?
  | k + 2, s =>
    match s.pull with
    | (events, none) => (events, none)
    | (events, some (_, rest)) =>
      let (events', answer) := rest.nth? (k + 1)
      (events ++ events', answer)

inductive Stage (ε α : Type) where
  | observe (f : α → ε)
  | map (f : α → α)
  | filter (p : α → Bool)
  | filterMap (f : α → Option α)
  | flatMap (f : α → Sequence ε α)
  | reverse
  /-- The items once more, out of a list. -/
  | rebuild

/-- Puts a step behind a sequence. The steps that need all items go through the sequence at once,
with the events that this takes. -/
def Stage.apply (s : Sequence ε α) : Stage ε α → List ε × Sequence ε α
  | .observe f => ([], s.observe f)
  | .map f => ([], s.map f)
  | .filter p => ([], s.filter p)
  | .filterMap f => ([], s.filterMap f)
  | .flatMap f => ([], s.flatMap f)
  | .reverse =>
    let (events, items) := s.toList
    (events, ofList items.reverse)
  | .rebuild =>
    let (events, items) := s.toList
    (events, ofList items)

/-- Puts the steps of a pipeline behind a sequence, from left to right. -/
def through (s : Sequence ε α) : List (Stage ε α) → List ε × Sequence ε α
  | [] => ([], s)
  | stage :: stages =>
    let (events, s) := stage.apply s
    let (events', s) := s.through stages
    (events ++ events', s)

end Sequence

end MarkupTree
