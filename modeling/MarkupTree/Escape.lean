import MarkupTree.Sequence

/-!
# Scoped early exit

A frame runs a body and hands it a stop. Stopping a frame with a value abandons all that runs
inside the frame, which then ends with the value. An escape carries the token of its frame, and its
value waits in the frame: a frame ends an escape if it is its own and a value waits, and lets
everything else pass. Where the tokens come from is left open.
-/

namespace MarkupTree.Escape

/-- What travels outwards when statements are abandoned. -/
inductive Unwinding (Token : Type) where
  | escape (token : Token)
  | panic (message : String)
deriving DecidableEq, Repr

/-- A frame: how many were begun before it, which tells where its value waits, and its token. -/
structure Frame (Token : Type) where
  number : Nat
  token : Token
deriving DecidableEq, Repr

/-- The state of a run: how many frames were begun, the values that wait in them, and the log,
latest entry first. -/
structure State where
  begun : Nat
  waiting : List (Nat × Int)
  log : List String
deriving DecidableEq, Repr

/-- A computation that may be abandoned. -/
abbrev Run (Token : Type) := ExceptT (Unwinding Token) (StateM State)

variable {Token : Type}

def write (entry : String) : Run Token Unit := modify fun s => { s with log := entry :: s.log }

/-- Leaves a value in a frame and unwinds to it. -/
def stop (frame : Frame Token) (value : Int) : Run Token Unit := do
  modify fun s => { s with waiting := (frame.number, value) :: s.waiting }
  throw (.escape frame.token)

/-- The value that waits in a frame is taken out of it. -/
def take (number : Nat) : Run Token (Option Int) := do
  let value? := ((← get).waiting.find? (·.1 == number)).map (·.2)
  modify fun s => { s with waiting := s.waiting.filter (·.1 != number) }
  return value?

/-- A program of frames and loops. The variable is the number that the innermost loop is at. -/
inductive Statement where
  | log (entry : String)
  /-- Runs the body for every item. What happens on the way to an item is logged. -/
  | each (items : Sequence String Int) (body : List Statement)
  /-- The same, and the sum of the items is logged at the end. -/
  | fold (items : Sequence String Int) (body : List Statement)
  | when (n : Int) (body : List Statement)
  /-- Runs the body in a frame whose result is `value`, and logs what the frame ends with. -/
  | frame (body : List Statement) (value : Int)
  /-- Stops the frame `depth` frames out with a value, or with the variable. -/
  | stop (depth : Nat) (value? : Option Int)
  | panic (message : String)

def foldItems {β : Type} (f : β → Int → Run Token β) (b : β) : Sequence String Int → Run Token β
  | .done => return b
  | .event entry next => do
    write entry
    foldItems f b (next ())
  | .item n next => do foldItems f (← f b n) (next ())
  | .later next => foldItems f b (next ())

variable [DecidableEq Token]

/-- What comes out of the body of a frame meets the frame. It ends there if it is an escape with
the token of the frame and a value waits in the frame; otherwise it passes through. -/
def receive (frame : Frame Token) (unwinding : Unwinding Token) : Run Token Int := do
  let value? ← take frame.number
  match unwinding, value? with
  | .escape token, some value => if token = frame.token then return value else throw unwinding
  | _, _ => throw unwinding

variable (draw : Nat → Token)

/-- Runs a body in a new frame, with the token that is drawn next. The frame ends with the result
of the body, or with the value of an escape that ends there. -/
def frame (body : Frame Token → Run Token Int) : Run Token Int := do
  let number := (← get).begun
  modify fun s => { s with begun := number + 1 }
  let frame := ⟨number, draw number⟩
  tryCatch (body frame) (receive frame)

mutual

/-- Runs a statement inside frames, the innermost first. -/
def Statement.run (frames : List (Frame Token)) (var : Int) : Statement → Run Token Unit
  | .log entry => write entry
  | .each items body =>
    foldItems (fun _ n => do
      write s!"each {n}"
      runAll frames n body) () items
  | .fold items body => do
    let sum ← foldItems (fun sum n => do
      runAll frames n body
      return sum + n) 0 items
    write s!"sum {sum}"
  | .when n body => if var = n then runAll frames var body else return ()
  | .frame body value => do
    let result ← Escape.frame draw fun frame => do
      runAll (frame :: frames) var body
      return value
    write s!"frame {result}"
  | .stop depth value? =>
    match frames[depth]? with
    | some frame => stop frame (value?.getD var)
    | none => return ()
  | .panic message => throw (.panic message)

def runAll (frames : List (Frame Token)) (var : Int) : List Statement → Run Token Unit
  | [] => return ()
  | statement :: rest => do
    statement.run frames var
    runAll frames var rest

end

/-- A program in one frame whose result is `value`. -/
def program (body : List Statement) (value : Int) : Run Token Int :=
  frame draw fun frame => do
    runAll draw [frame] 0 body
    return value

/-- The run of a program: the value that its frame ends with or what left the frame, and the log. -/
def execute (body : List Statement) (value : Int) : Except (Unwinding Token) Int × List String :=
  let (outcome, state) := (program draw body value).run.run ⟨0, [], []⟩
  (outcome, state.log.reverse)

end MarkupTree.Escape
