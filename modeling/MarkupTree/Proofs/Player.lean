import MarkupTree.Proofs.Tree
import MarkupTree.Signal.Player

/-!
# A player gives the signals of the tree

Playing a stack has one outcome at most. A node on top of the stack is played as the signals of
the tree it shows, and then the player goes on with the rest of the stack.
-/

namespace MarkupTree.Document

variable {d : Document} {x : NodeId} {stack : List Frame} {signals signals' : List Signal}

theorem Plays.functional (h : d.Plays stack signals) (h' : d.Plays stack signals') :
    signals = signals' := by
  induction h generalizing signals' with
  | done => cases h'; rfl
  | step _ ih =>
    cases h' with
    | step h' => rw [ih h']

/-! ### One step -/

theorem Plays.of_frame {f : Frame} {s? : Option Signal} {frames : List Frame}
    (hf : d.playFrame f = (s?, frames)) (h : d.Plays (frames ++ stack) signals) :
    d.Plays (f :: stack) (s?.toList ++ signals) := by
  have hstep : d.Plays ((d.playFrame f).2 ++ stack) signals := by rwa [hf]
  have hplays := hstep.step
  rwa [hf] at hplays

theorem playFrame_of_stale (hx : ¬ d.contains x = true) : d.playFrame (.enter x) = (none, []) := by
  rw [playFrame, get?_eq_none.2 (Bool.eq_false_iff.2 hx)]

theorem playFrame_enter {c : Content} (hc : d.content? x = some c) :
    d.playFrame (.enter x) = c.enter x (d.children x) := by
  rw [content?, Option.map_eq_some_iff] at hc
  obtain ⟨node, hn, rfl⟩ := hc
  rw [playFrame, children, hn]

theorem playFrame_exit {name : String} {as : List Attribute}
    (hc : d.content? x = some (.element name as)) :
    d.playFrame (.exit x) = (some (.endTag name), []) := by
  rw [playFrame, name?, hc]
  rfl

/-! ### Whole trees -/

mutual

theorem Shows.plays : ∀ {t : Tree} {x : NodeId} {stack : List Frame} {signals : List Signal},
    d.Shows t x → d.Plays stack signals → d.Plays (.enter x :: stack) (t.signals ++ signals)
  | .document ts, x, stack, signals, hs, h =>
    .of_frame (playFrame_enter hs.1) (ShowsList.plays hs.2 h)
  | .element name as ts, x, stack, signals, hs, h => by
    have hexit : d.Plays (.exit x :: stack) (.endTag name :: signals) :=
      .of_frame (playFrame_exit hs.1) h
    have hchildren := ShowsList.plays hs.2 hexit
    rw [Tree.signals, List.cons_append, List.append_assoc]
    refine .of_frame (playFrame_enter hs.1) ?_
    rw [List.append_assoc]
    exact hchildren
  | .text s, x, stack, signals, hs, h => .of_frame (playFrame_enter hs.1) h

theorem ShowsList.plays : ∀ {ts : List Tree} {xs : List NodeId} {stack : List Frame}
    {signals : List Signal}, d.ShowsList ts xs → d.Plays stack signals →
    d.Plays (xs.map .enter ++ stack) (Tree.signalsOfList ts ++ signals)
  | [], [], _, _, _, h => h
  | t :: ts, x :: xs, stack, signals, hs, h => by
    rw [Tree.signalsOfList, List.append_assoc]
    exact Shows.plays hs.1 (ShowsList.plays hs.2 h)

end

/-- A player that is given a node gives the signals of its tree. -/
theorem Linked.plays_signals (h : d.Linked) (x : NodeId) : d.Plays [.enter x] (d.signals x) := by
  by_cases hx : d.contains x = true
  · obtain ⟨t, ht⟩ := h.exists_shows x hx
    have hplays := Shows.plays ht .done
    rw [List.append_nil] at hplays
    rw [signals, ht.tree?_eq h]
    exact hplays
  · have hnone : d.tree? x = none := by
      rw [h.tree?_eq, content?_of_stale hx]
      rfl
    rw [signals, hnone]
    exact .of_frame (playFrame_of_stale hx) .done

/-- There is nothing else that a player can give. -/
theorem Linked.plays_iff (h : d.Linked) :
    d.Plays [.enter x] signals ↔ signals = d.signals x := by
  constructor
  · exact fun hplays => hplays.functional (h.plays_signals x)
  · rintro rfl
    exact h.plays_signals x

end MarkupTree.Document
