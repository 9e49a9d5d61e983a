import MarkupTree.Escape

/-!
# Early exit without tokens

What programs of frames and loops mean. A statement is done, or it panics, or a frame around it is
stopped, which is named by its distance. Whatever follows a statement that is not done is left out,
up to the frame that is stopped; a panic leaves all of them.
-/

namespace MarkupTree.Escape

/-- How a statement inside `n` frames ends. -/
inductive Ending (n : Nat) (α : Type) where
  | done (a : α)
  /-- A frame is stopped with a value. The innermost frame has the number 0. -/
  | stopped (frame : Fin n) (value : Int)
  | panicked (message : String)
deriving DecidableEq, Repr

/-- Outside of all frames nothing but a panic is left over. -/
def Ending.result {α : Type} : Ending 0 α → Except String α
  | .done a => .ok a
  | .stopped frame _ => frame.elim0
  | .panicked message => .error message

/-- How a statement inside `n` frames ends, and what it logs. -/
structure Outcome (n : Nat) (α : Type) where
  ending : Ending n α
  log : List String
deriving DecidableEq, Repr

namespace Outcome

variable {n : Nat} {α β : Type}

def done (a : α) : Outcome n α := ⟨.done a, []⟩

def write (entry : String) : Outcome n Unit := ⟨.done (), [entry]⟩

/-- Goes on with what follows, if there is something to go on with. -/
def andThen (o : Outcome n α) (f : α → Outcome n β) : Outcome n β :=
  match o.ending with
  | .done a => ⟨(f a).ending, o.log ++ (f a).log⟩
  | .stopped frame value => ⟨.stopped frame value, o.log⟩
  | .panicked message => ⟨.panicked message, o.log⟩

/-- The frame around a body ends with the result of the body, or with the value that it is stopped
with. It has no part in what concerns the frames around it. -/
def framed (o : Outcome (n + 1) Int) : Outcome n Int :=
  ⟨match o.ending with
    | .done value => .done value
    | .stopped ⟨0, _⟩ value => .done value
    | .stopped ⟨k + 1, h⟩ value => .stopped ⟨k, Nat.lt_of_succ_lt_succ h⟩ value
    | .panicked message => .panicked message, o.log⟩

def foldItems (f : β → Int → Outcome n β) (b : β) : Sequence String Int → Outcome n β
  | .done => done b
  | .event entry next => (write entry).andThen fun _ => foldItems f b (next ())
  | .item k next => (f b k).andThen fun b => foldItems f b (next ())
  | .later next => foldItems f b (next ())

end Outcome

mutual

/-- The outcome of a statement inside `n` frames. -/
def Statement.outcome (n : Nat) (var : Int) : Statement → Outcome n Unit
  | .log entry => .write entry
  | .each items body =>
    .foldItems (fun _ k => (Outcome.write s!"each {k}").andThen fun _ => outcomeAll n k body) ()
      items
  | .fold items body =>
    (Outcome.foldItems (fun sum k => (outcomeAll n k body).andThen fun _ => .done (sum + k)) 0
      items).andThen fun sum => .write s!"sum {sum}"
  | .when k body => if var = k then outcomeAll n var body else .done ()
  | .frame body value =>
    ((outcomeAll (n + 1) var body).andThen fun _ => .done value).framed.andThen fun result =>
      .write s!"frame {result}"
  | .stop depth value? =>
    if h : depth < n then ⟨.stopped ⟨depth, h⟩ (value?.getD var), []⟩ else .done ()
  | .panic message => ⟨.panicked message, []⟩

def outcomeAll (n : Nat) (var : Int) : List Statement → Outcome n Unit
  | [] => .done ()
  | statement :: rest => (statement.outcome n var).andThen fun _ => outcomeAll n var rest

end

/-- The outcome of a program in one frame whose result is `value`. -/
def outcome (body : List Statement) (value : Int) : Outcome 0 Int :=
  ((outcomeAll 1 0 body).andThen fun _ => .done value).framed

end MarkupTree.Escape
