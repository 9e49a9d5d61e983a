import MarkupTree.Escape.Structured

/-!
# Early exit is exactly scoped

A run with tokens does what its outcome without tokens says. As long as nothing unwinds no value
waits in a frame, and while an escape is on its way its value is the only one, and it waits in the
frame that the escape is aimed at. So a frame that is not stopped has no value to end an escape
with, and the frame that is stopped ends it.
-/

namespace MarkupTree.Escape

variable {Token α β : Type} {s : State}

/-- How a computation ends, and the state that it leaves behind. -/
def exec (m : Run Token α) (s : State) : Except (Unwinding Token) α × State := m.run.run s

/-- The ending of a run inside frames, and the values that wait when it has ended. -/
def Ending.Reached (frames : List (Frame Token)) :
    Ending frames.length α → Except (Unwinding Token) α → List (Nat × Int) → Prop
  | .done a, result, waiting => result = .ok a ∧ waiting = []
  | .stopped i value, result, waiting =>
    result = .error (.escape frames[i].token) ∧ waiting = [(frames[i].number, value)]
  | .panicked message, result, waiting => result = .error (.panic message) ∧ waiting = []

/-- A run that began in `s` ends with an outcome. -/
structure Follows (frames : List (Frame Token)) (s : State) (o : Outcome frames.length α)
    (r : Except (Unwinding Token) α × State) : Prop where
  begun : s.begun ≤ r.2.begun
  log : r.2.log = o.log.reverse ++ s.log
  ending : o.ending.Reached frames r.1 r.2.waiting

/-- Inside frames that were begun earlier, and with no value waiting, the outcome of a computation
is `o`. -/
def Agrees (frames : List (Frame Token)) (m : Run Token α) (o : Outcome frames.length α) : Prop :=
  ∀ s : State, s.waiting = [] → (∀ f ∈ frames, f.number < s.begun) →
    Follows frames s o (exec m s)

theorem exec_bind (m : Run Token α) (f : α → Run Token β) (s : State) :
    exec (m >>= f) s = match exec m s with
      | (.ok a, t) => exec (f a) t
      | (.error u, t) => (.error u, t) := by
  unfold exec
  rw [ExceptT.run_bind, StateT.run_bind]
  rcases h : m.run.run s with ⟨_ | _, t⟩ <;> rfl

theorem exec_tryCatch (m : Run Token α) (handler : Unwinding Token → Run Token α) (s : State) :
    exec (tryCatch m handler) s = match exec m s with
      | (.ok a, t) => (.ok a, t)
      | (.error u, t) => exec (handler u) t := by
  show ExceptT.tryCatch m handler s = _
  unfold exec ExceptT.run StateT.run
  simp only [ExceptT.tryCatch, ExceptT.mk, bind, StateT.bind]
  rcases m s with ⟨_ | _, t⟩ <;> rfl

section
variable [DecidableEq Token] {f : Frame Token} {value : Int}

theorem exec_frame (draw : Nat → Token) (body : Frame Token → Run Token Int) (s : State) :
    exec (frame draw body) s =
      match exec (body ⟨s.begun, draw s.begun⟩) { s with begun := s.begun + 1 } with
      | (.ok value, t) => (.ok value, t)
      | (.error u, t) => exec (receive ⟨s.begun, draw s.begun⟩ u) t := by
  rw [frame, exec_bind]
  show exec (tryCatch (body ⟨s.begun, draw s.begun⟩) _) { s with begun := s.begun + 1 } = _
  rw [exec_tryCatch]
  rcases exec (body ⟨s.begun, draw s.begun⟩) { s with begun := s.begun + 1 } with ⟨_ | _, t⟩ <;> rfl

/-- The value that waits in a frame is what an escape to the frame ends with. -/
theorem exec_receive_own (h : s.waiting = [(f.number, value)]) :
    exec (receive f (.escape f.token)) s = (.ok value, { s with waiting := [] }) := by
  have htake : exec (take f.number : Run Token _) s = (.ok (some value), { s with waiting := [] }) := by
    show (Except.ok ((s.waiting.find? (·.1 == f.number)).map (·.2)),
      { s with waiting := s.waiting.filter (·.1 != f.number) }) = _
    simp [h]
  rw [receive, exec_bind, htake]
  simp only [if_pos]
  rfl

/-- A frame in which no value waits lets everything pass, whatever its token is. -/
theorem exec_receive_of_empty (h : ∀ w ∈ s.waiting, w.1 ≠ f.number) (unwinding : Unwinding Token) :
    exec (receive f unwinding) s = (.error unwinding, s) := by
  have htake : exec (take f.number : Run Token _) s = (.ok none, s) := by
    show (Except.ok ((s.waiting.find? (·.1 == f.number)).map (·.2)),
      { s with waiting := s.waiting.filter (·.1 != f.number) }) = _
    rw [List.find?_eq_none.2 (by simpa using h), List.filter_eq_self.2 (by simpa using h)]
    rfl
  rw [receive, exec_bind, htake]
  cases unwinding <;> rfl

end

namespace Agrees

variable {frames : List (Frame Token)} {m : Run Token α}

theorem done (a : α) : Agrees frames (pure a) (.done a) :=
  fun _ hs _ => ⟨Nat.le_refl _, rfl, rfl, hs⟩

theorem write (entry : String) : Agrees frames (Escape.write entry) (.write entry) :=
  fun _ hs _ => ⟨Nat.le_refl _, rfl, rfl, hs⟩

theorem panic (message : String) :
    Agrees frames (throw (.panic message) : Run Token α) ⟨.panicked message, []⟩ :=
  fun _ hs _ => ⟨Nat.le_refl _, rfl, rfl, hs⟩

theorem stop (i : Fin frames.length) (value : Int) :
    Agrees frames (Escape.stop frames[i] value) ⟨.stopped i value, []⟩ := by
  intro s hs _
  refine ⟨Nat.le_refl _, rfl, rfl, ?_⟩
  show (frames[i].number, value) :: s.waiting = _
  rw [hs]

theorem bind {f : α → Run Token β} {o : Outcome frames.length α}
    {k : α → Outcome frames.length β} (hm : Agrees frames m o) (hf : ∀ a, Agrees frames (f a) (k a)) :
    Agrees frames (m >>= f) (o.andThen k) := by
  intro s hs hframes
  have hrun := hm s hs hframes
  rw [exec_bind]
  generalize exec m s = run at hrun ⊢
  rcases run with ⟨r, t⟩
  obtain ⟨hbegun, hlog, hend⟩ := hrun
  rcases o with ⟨ending, log⟩
  cases ending with
  | done a =>
    obtain ⟨rfl, ht⟩ := hend
    obtain ⟨hbegun', hlog', hend'⟩ :=
      hf a t ht fun frame hframe => Nat.lt_of_lt_of_le (hframes frame hframe) hbegun
    refine ⟨Nat.le_trans hbegun hbegun', ?_, hend'⟩
    have hlog : t.log = log.reverse ++ s.log := hlog
    rw [hlog', hlog]
    simp [Outcome.andThen]
  | stopped i value =>
    obtain ⟨rfl, ht⟩ := hend
    exact ⟨hbegun, hlog, rfl, ht⟩
  | panicked message =>
    obtain ⟨rfl, ht⟩ := hend
    exact ⟨hbegun, hlog, rfl, ht⟩

theorem foldItems {f : β → Int → Run Token β} {g : β → Int → Outcome frames.length β}
    (hf : ∀ b n, Agrees frames (f b n) (g b n)) : ∀ (items : Sequence String Int) (b : β),
    Agrees frames (Escape.foldItems f b items) (.foldItems g b items)
  | .done, b => .done b
  | .event entry next, b => .bind (.write entry) fun _ => foldItems hf (next ()) b
  | .item n next, b => .bind (hf b n) fun b => foldItems hf (next ()) b
  | .later next, b => foldItems hf (next ()) b

variable [DecidableEq Token] (draw : Nat → Token)

theorem frame {body : Frame Token → Run Token Int} {o : Outcome (frames.length + 1) Int}
    (h : ∀ frame : Frame Token, Agrees (frame :: frames) (body frame) o) :
    Agrees frames (Escape.frame draw body) o.framed := by
  intro s hs hframes
  have hrun := h ⟨s.begun, draw s.begun⟩ { s with begun := s.begun + 1 } hs fun frame hframe => by
    rcases List.mem_cons.1 hframe with rfl | hframe
    · exact Nat.lt_succ_self _
    · exact Nat.lt_succ_of_lt (hframes frame hframe)
  rw [exec_frame]
  generalize exec (body ⟨s.begun, draw s.begun⟩) { s with begun := s.begun + 1 } = run at hrun ⊢
  rcases run with ⟨r, t⟩
  obtain ⟨hbegun, hlog, hend⟩ := hrun
  have hbegun := Nat.le_of_succ_le hbegun
  rcases o with ⟨ending, log⟩
  cases ending with
  | done value =>
    obtain ⟨rfl, ht⟩ := hend
    exact ⟨hbegun, hlog, rfl, ht⟩
  | stopped i value =>
    obtain ⟨rfl, ht⟩ := hend
    rcases i with ⟨_ | k, hk⟩
    · -- The escape is aimed at this frame.
      have ht : t.waiting = [(s.begun, value)] := ht
      show Follows frames s _ (exec (receive _ (.escape (draw s.begun))) t)
      rw [exec_receive_own (f := ⟨s.begun, draw s.begun⟩) ht]
      exact ⟨hbegun, hlog, rfl, rfl⟩
    · -- The escape is aimed at a frame further out, which was begun earlier.
      have hk : k < frames.length := Nat.lt_of_succ_lt_succ hk
      have hne : frames[k].number ≠ s.begun := Nat.ne_of_lt (hframes _ (List.getElem_mem hk))
      have ht : t.waiting = [(frames[k].number, value)] := ht
      show Follows frames s _ (exec (receive _ _) t)
      rw [exec_receive_of_empty (by simpa [ht] using hne)]
      exact ⟨hbegun, hlog, rfl, ht⟩
  | panicked message =>
    obtain ⟨rfl, ht⟩ := hend
    have ht : t.waiting = [] := ht
    show Follows frames s _ (exec (receive _ _) t)
    rw [exec_receive_of_empty (by simp [ht])]
    exact ⟨hbegun, hlog, rfl, ht⟩

end Agrees

mutual

variable [DecidableEq Token] (draw : Nat → Token)

theorem Statement.run_agrees (frames : List (Frame Token)) (var : Int) : ∀ statement : Statement,
    Agrees frames (statement.run draw frames var) (statement.outcome frames.length var)
  | .log entry => .write entry
  | .each items body => by
    rw [Statement.run, Statement.outcome]
    exact .foldItems (fun _ n => .bind (.write _) fun _ => runAll_agrees frames n body) items ()
  | .fold items body => by
    rw [Statement.run, Statement.outcome]
    exact .bind (.foldItems (fun sum n => .bind (runAll_agrees frames n body) fun _ => .done _)
      items 0) fun sum => .write _
  | .when n body => by
    rw [Statement.run, Statement.outcome]
    split
    · exact runAll_agrees frames var body
    · exact .done ()
  | .frame body value => by
    rw [Statement.run, Statement.outcome]
    refine .bind (.frame draw fun frame => ?_) fun result => .write _
    exact .bind (runAll_agrees (frame :: frames) var body) fun _ => .done value
  | .stop depth value? => by
    rw [Statement.run, Statement.outcome]
    split
    · rename_i frame hframe
      obtain ⟨h, rfl⟩ := List.getElem?_eq_some_iff.1 hframe
      rw [dif_pos h]
      exact .stop ⟨depth, h⟩ _
    · rename_i hframe
      rw [dif_neg (Nat.not_lt.2 (List.getElem?_eq_none_iff.1 hframe))]
      exact .done ()
  | .panic message => .panic message

theorem runAll_agrees (frames : List (Frame Token)) (var : Int) : ∀ body : List Statement,
    Agrees frames (runAll draw frames var body) (outcomeAll frames.length var body)
  | [] => .done ()
  | statement :: rest => by
    rw [runAll, outcomeAll]
    exact .bind (statement.run_agrees frames var) fun _ => runAll_agrees frames var rest

end

theorem program_agrees [DecidableEq Token] (draw : Nat → Token) (body : List Statement)
    (value : Int) : Agrees [] (program draw body value) (outcome body value) :=
  .frame draw fun f => .bind (runAll_agrees draw [f] 0 body) fun _ => .done value

/-- The run of a program with tokens is its outcome without them: it gives the same result, or it
is left by the same panic and by no escape, and it logs the same. No two tokens have to be
different for that. -/
theorem execute_eq_outcome [DecidableEq Token] (draw : Nat → Token) (body : List Statement)
    (value : Int) : execute draw body value =
      ((outcome body value).ending.result.mapError .panic, (outcome body value).log) := by
  have hrun := program_agrees draw body value ⟨0, [], []⟩ rfl fun _ h => absurd h List.not_mem_nil
  show ((exec (program draw body value) ⟨0, [], []⟩).1,
    (exec (program draw body value) ⟨0, [], []⟩).2.log.reverse) = _
  generalize exec (program draw body value) ⟨0, [], []⟩ = run at hrun ⊢
  rcases run with ⟨r, t⟩
  obtain ⟨-, hlog, hend⟩ := hrun
  have hlog : t.log = (outcome body value).log.reverse ++ [] := hlog
  rw [hlog, List.append_nil, List.reverse_reverse]
  refine Prod.ext ?_ rfl
  generalize (outcome body value).ending = ending at hend ⊢
  cases ending with
  | done a => exact hend.1
  | stopped i value => exact i.elim0
  | panicked message => exact hend.1

/-- A stop of the outer frame passes through the inner one, of which no result is logged. -/
example : outcome [.frame [.log "a", .stop 1 (some 7), .log "b"] 0, .log "c"] 0 =
    ⟨.done 7, ["a"]⟩ := rfl

end MarkupTree.Escape
