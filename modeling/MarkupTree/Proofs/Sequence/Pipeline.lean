import MarkupTree.Proofs.Sequence.History
import MarkupTree.Sequence.Numbers

/-!
# Pipelines on demand

A pipeline puts steps behind a sequence. What it computes is what the list functions of the same
names compute. Without a step that needs all items at once it does nothing ahead of time: nothing
before the first pull, and nothing behind the moment that gives the item asked for. A step that
needs all items goes through all that stands before it, once, and only then does the rest begin.
-/

namespace MarkupTree

open Moment

namespace Sequence

variable {ε α β γ : Type}

/-- A list that is seen to be asked for each of its items. -/
def source (asked : α → ε) (as : List α) : Sequence ε α := (ofList as).observe asked

@[simp] theorem items_source (asked : α → ε) (as : List α) : (source asked as).items = as := by
  rw [source, items_observe, items_ofList]

theorem history_source (asked : α → ε) (as : List α) :
    (source asked as).history = as.flatMap fun a => [.event (asked a), .item a] := by
  rw [source, history_observe, history_ofList, List.flatMap_map]
  rfl

/-- A step that takes the items one by one. Each call of its function is seen. -/
inductive Lazy (ε : Type) : Type → Type → Type 1
  | map {α β : Type} (call : α → ε) (f : α → β) : Lazy ε α β
  | filter {α : Type} (call : α → ε) (p : α → Bool) : Lazy ε α α
  | filterMap {α β : Type} (call : α → ε) (f : α → Option β) : Lazy ε α β
  | flatMap {α β : Type} (call : α → ε) (f : α → Sequence ε β) : Lazy ε α β

namespace Lazy

def apply : Lazy ε α β → Sequence ε α → Sequence ε β
  | map call f, s => (s.observe call).map f
  | filter call p, s => (s.observe call).filter p
  | filterMap call f, s => (s.observe call).filterMap f
  | flatMap call f, s => (s.observe call).flatMap f

def onList : Lazy ε α β → List α → List β
  | map _ f, as => as.map f
  | filter _ p, as => as.filter p
  | filterMap _ f, as => as.filterMap f
  | flatMap _ f, as => as.flatMap fun a => (f a).items

/-- What happens when one item comes to the step: the function is called, and what it gives goes on
its way. -/
def moments : Lazy ε α β → α → List (Moment ε β)
  | map call f, a => [.event (call a), .item (f a)]
  | filter call p, a => .event (call a) :: if p a then [.item a] else []
  | filterMap call f, a => .event (call a) :: (f a).toList.map .item
  | flatMap call f, a => .event (call a) :: (f a).history

theorem onList_eq_flatMap (t : Lazy ε α β) (as : List α) :
    t.onList as = as.flatMap fun a => itemsOf (t.moments a) := by
  induction as with
  | nil => cases t <;> rfl
  | cons a as ih =>
    rw [List.flatMap_cons, ← ih]
    cases t with
    | map call f => rfl
    | filter call p => by_cases ha : p a = true <;> simp [onList, moments, ha]
    | filterMap call f => cases ha : f a <;> simp [onList, moments, ha]
    | flatMap call f => simp [onList, moments]

/-- Each call comes right before what is made of its item. -/
theorem flatMap_history_observe (call : α → ε) (f : α → List (Moment ε β)) (s : Sequence ε α) :
    (s.observe call).history.flatMap (spread f) =
      s.history.flatMap (spread fun a => .event (call a) :: f a) := by
  rw [history_observe, flatMap_spread]
  simp [spread]

theorem history_apply (t : Lazy ε α β) (s : Sequence ε α) :
    (t.apply s).history = s.history.flatMap (spread t.moments) := by
  cases t with
  | map call f => rw [apply, history_map, flatMap_history_observe]; rfl
  | filter call p => rw [apply, history_filter, flatMap_history_observe]; rfl
  | filterMap call f => rw [apply, history_filterMap, flatMap_history_observe]; rfl
  | flatMap call f => rw [apply, history_flatMap, flatMap_history_observe]; rfl

end Lazy

/-- Steps to be put behind a sequence, the first one first. -/
inductive Pipeline (ε : Type) : Type → Type → Type 1
  | nil {α : Type} : Pipeline ε α α
  | step {α β γ : Type} (t : Lazy ε α β) (rest : Pipeline ε β γ) : Pipeline ε α γ
  | reverse {α β : Type} (rest : Pipeline ε α β) : Pipeline ε α β
  /-- The items once more, out of a list. -/
  | rebuild {α β : Type} (rest : Pipeline ε α β) : Pipeline ε α β

namespace Pipeline

/-- Puts the steps behind a sequence, from the first one on, and tells what is seen of that. -/
def run : {α β : Type} → Pipeline ε α β → Sequence ε α → List ε × Sequence ε β
  | _, _, nil, s => ([], s)
  | _, _, step t rest, s => rest.run (t.apply s)
  | _, _, reverse rest, s =>
    let (built, s') := rest.run (ofList s.toList.2.reverse)
    (s.toList.1 ++ built, s')
  | _, _, rebuild rest, s =>
    let (built, s') := rest.run (ofList s.toList.2)
    (s.toList.1 ++ built, s')

def append : {α β γ : Type} → Pipeline ε α β → Pipeline ε β γ → Pipeline ε α γ
  | _, _, _, nil, r => r
  | _, _, _, step t rest, r => step t (rest.append r)
  | _, _, _, reverse rest, r => reverse (rest.append r)
  | _, _, _, rebuild rest, r => rebuild (rest.append r)

/-- No step needs all items at once. -/
def IsLazy : {α β : Type} → Pipeline ε α β → Prop
  | _, _, nil => True
  | _, _, step _ rest => rest.IsLazy
  | _, _, reverse _ | _, _, rebuild _ => False

def onList : {α β : Type} → Pipeline ε α β → List α → List β
  | _, _, nil, as => as
  | _, _, step t rest, as => rest.onList (t.onList as)
  | _, _, reverse rest, as => rest.onList as.reverse
  | _, _, rebuild rest, as => rest.onList as

/-- All that happens when everything is asked for. -/
def onHistory : {α β : Type} → Pipeline ε α β → List (Moment ε α) → List (Moment ε β)
  | _, _, nil, h => h
  | _, _, step t rest, h => rest.onHistory (h.flatMap (spread t.moments))
  | _, _, reverse rest, h =>
    (eventsOf h).map .event ++ rest.onHistory ((itemsOf h).reverse.map .item)
  | _, _, rebuild rest, h => (eventsOf h).map .event ++ rest.onHistory ((itemsOf h).map .item)

/-- What is seen when everything is asked for. -/
def trace (p : Pipeline ε α β) (s : Sequence ε α) : List ε := (p.run s).1 ++ (p.run s).2.toList.1

/-! ### What a pipeline computes -/

theorem history_run (p : Pipeline ε α β) (s : Sequence ε α) :
    (p.run s).1.map .event ++ (p.run s).2.history = p.onHistory s.history := by
  -- A step that needs all items turns what came before into events and goes on from a list.
  induction p with
  | nil => rfl
  | step t rest ih => rw [run, ih, onHistory, Lazy.history_apply]
  | reverse rest ih | rebuild rest ih =>
    simp only [run, onHistory, List.map_append, List.append_assoc, ih, toList_eq, history_ofList,
      eventsOf_history, itemsOf_history]

theorem itemsOf_onHistory (p : Pipeline ε α β) (h : List (Moment ε α)) :
    itemsOf (p.onHistory h) = p.onList (itemsOf h) := by
  induction p with
  | nil => rfl
  | step t rest ih => rw [onHistory, ih, itemsOf_flatMap, ← Lazy.onList_eq_flatMap, onList]
  | reverse rest ih | rebuild rest ih =>
    rw [onHistory, itemsOf_append, ih, itemsOf_map_event, itemsOf_map_item, onList, List.nil_append]

theorem items_run (p : Pipeline ε α β) (s : Sequence ε α) :
    (p.run s).2.items = p.onList s.items := by
  rw [← itemsOf_history s, ← itemsOf_onHistory, ← history_run, itemsOf_append, itemsOf_map_event,
    itemsOf_history, List.nil_append]

theorem trace_eq (p : Pipeline ε α β) (s : Sequence ε α) :
    p.trace s = eventsOf (p.onHistory s.history) := by
  rw [trace, ← history_run, eventsOf_append, eventsOf_map_event, eventsOf_history, toList_eq]

/-! ### Two pipelines, one behind the other -/

theorem run_append (q : Pipeline ε α γ) (r : Pipeline ε γ β) (s : Sequence ε α) :
    (q.append r).run s = ((q.run s).1 ++ (r.run (q.run s).2).1, (r.run (q.run s).2).2) := by
  induction q with
  | nil => rfl
  | step t rest ih => rw [append, run, ih, run]
  | reverse rest ih | rebuild rest ih => simp only [append, run, ih, List.append_assoc]

theorem isLazy_append {q : Pipeline ε α γ} {r : Pipeline ε γ β} :
    (q.append r).IsLazy ↔ q.IsLazy ∧ r.IsLazy := by
  induction q with
  | nil => exact (and_iff_right trivial).symm
  | step t rest ih => exact ih
  | reverse | rebuild => exact iff_of_false id And.left

variable {p : Pipeline ε α β}

theorem built_of_isLazy (hp : p.IsLazy) (s : Sequence ε α) : (p.run s).1 = [] := by
  induction p with
  | nil => rfl
  | step t rest ih => exact ih hp _
  | reverse | rebuild => exact hp.elim

theorem history_of_isLazy (hp : p.IsLazy) (s : Sequence ε α) :
    (p.run s).2.history = p.onHistory s.history := by
  rw [← history_run, built_of_isLazy hp]
  rfl

theorem onHistory_nil (hp : p.IsLazy) : p.onHistory [] = [] := by
  induction p with
  | nil => rfl
  | step t rest ih => exact ih hp
  | reverse | rebuild => exact hp.elim

/-- A pipeline of lazy steps has no memory: what comes later is treated as if it came first. -/
theorem onHistory_append (hp : p.IsLazy) (h h' : List (Moment ε α)) :
    p.onHistory (h ++ h') = p.onHistory h ++ p.onHistory h' := by
  induction p with
  | nil => rfl
  | step t rest ih => rw [onHistory, List.flatMap_append, ih hp, onHistory, onHistory]
  | reverse | rebuild => exact hp.elim

end Pipeline

/-! ### What is asked and what is seen -/

/-- The questions to a sequence have the answers of the same questions to a list. -/
structure Answers (s : Sequence ε α) (as : List α) : Prop where
  toList : s.toList.2 = as
  count : s.count.2 = as.length
  first? : s.first?.2 = as.head?
  last? : s.last?.2 = as.getLast?
  nth? : ∀ k, (s.nth? k).2 = if k = 0 then none else as[k - 1]?
  fold : ∀ {β : Type} (f : β → α → β) (b : β), (s.fold f b).2 = as.foldl f b
  pulls : ∀ k, (s.pulls k).2 = (List.range k).map (as[·]?)

theorem answers_items (s : Sequence ε α) : Answers s s.items where
  toList := by rw [toList_eq]
  count := by rw [count_eq]
  first? := by
    show (s.nth? (0 + 1)).2 = _
    rw [nth?_succ, List.head?_eq_getElem?]
  last? := by rw [last?_eq]
  nth? k := by
    cases k with
    | zero => rfl
    | succ k =>
      rw [nth?_succ, if_neg (Nat.succ_ne_zero k)]
      rfl
  fold f b := by rw [fold_eq]
  pulls k := by rw [pulls_eq]

/-- What a pipeline lets see if none of its steps needs all items at once. -/
structure OnDemand (p : Pipeline ε α β) (s : Sequence ε α) : Prop where
  /-- Nothing happens before the first pull. -/
  built_eq : (p.run s).1 = []
  /-- Each item of the source is followed by all that the steps make of it. -/
  history_eq : (p.run s).2.history = p.onHistory s.history
  pulls_isPrefix_succ : ∀ k, ((p.run s).2.pulls k).1 <+: ((p.run s).2.pulls (k + 1)).1
  pulls_isPrefix : ∀ k, ((p.run s).2.pulls k).1 <+: p.trace s
  /-- Nothing happens behind the item that the last pull gives. -/
  pulls_item : ∀ before b after, (p.run s).2.history = before ++ .item b :: after →
    ((p.run s).2.pulls ((itemsOf before).length + 1)).1 = eventsOf before
  pulls_end : ∀ k, (p.onList s.items).length < k → ((p.run s).2.pulls k).1 = p.trace s
  first? : (p.run s).2.first?.1 = ((p.run s).2.pulls 1).1
  nth? : ∀ k, ((p.run s).2.nth? k).1 = ((p.run s).2.pulls k).1
  nth?_zero : ((p.run s).2.nth? 0).1 = []
  /-- Where an item goes from one part of the pipeline to the next and a pull takes something that
  is made of it, the items behind it do not matter: the pulls have gone through what is made of the
  items before, and of this one as far as was asked. -/
  pulls_within : ∀ {γ : Type} (q : Pipeline ε α γ) (r : Pipeline ε γ β), p = q.append r →
    ∀ before c after, (q.run s).2.history = before ++ .item c :: after →
      ∀ j, 0 < j → j ≤ (r.onList [c]).length →
        ((p.run s).2.pulls ((r.onList (itemsOf before)).length + j)).1 =
          eventsOf (r.onHistory before) ++ ((r.run (ofList [c])).2.pulls j).1

namespace Pipeline

theorem pulls_append {q : Pipeline ε α γ} {r : Pipeline ε γ β} (hr : r.IsLazy)
    {s : Sequence ε α} {before after : List (Moment ε γ)} {c : γ}
    (hs : (q.run s).2.history = before ++ .item c :: after) {j : Nat} (hpos : 0 < j)
    (hj : j ≤ (r.onList [c]).length) :
    (((q.append r).run s).2.pulls ((r.onList (itemsOf before)).length + j)).1 =
      eventsOf (r.onHistory before) ++ ((r.run (ofList [c])).2.pulls j).1 := by
  have hone : (r.run (ofList [c])).2.history = r.onHistory [.item c] := by
    rw [history_of_isLazy hr, history_ofList]
    rfl
  have hall : ((q.append r).run s).2.history =
      r.onHistory before ++ (r.onHistory [.item c] ++ r.onHistory after) := by
    rw [run_append, history_of_isLazy hr, hs, onHistory_append hr, ← List.singleton_append,
      onHistory_append hr]
  have hcount : (itemsOf (r.onHistory before)).length = (r.onList (itemsOf before)).length := by
    rw [itemsOf_onHistory]
  have hlen : j ≤ (itemsOf (r.onHistory [.item c])).length := by
    rw [itemsOf_onHistory]
    exact hj
  -- The item number `j` of what is made of `c` is reached before anything that is made of `after`.
  rw [pulls_eq, pulls_eq, hone, hall, ← hcount, upTo_append_add hpos, upTo_append_of_le hlen,
    eventsOf_append]

variable {p : Pipeline ε α β}

theorem onDemand (hp : p.IsLazy) (s : Sequence ε α) : OnDemand p s where
  built_eq := built_of_isLazy hp s
  history_eq := history_of_isLazy hp s
  pulls_isPrefix_succ k := by
    rw [pulls_eq, pulls_eq]
    exact (upTo_isPrefix_succ k _).filterMap _
  pulls_isPrefix k := by
    rw [trace_eq, pulls_eq, ← history_of_isLazy hp]
    exact (upTo_isPrefix k _).filterMap _
  pulls_item before b after h := by
    rw [pulls_eq, h, upTo_append_add Nat.one_pos]
    simp [upTo]
  pulls_end k hk := by
    rw [trace_eq, pulls_eq, ← history_of_isLazy hp, upTo_of_lt]
    rwa [itemsOf_history, items_run]
  first? := by
    show ((p.run s).2.nth? (0 + 1)).1 = _
    rw [nth?_succ, pulls_eq]
  nth? k := by
    cases k with
    | zero => rfl
    | succ k => rw [nth?_succ, pulls_eq]
  nth?_zero := rfl
  pulls_within q r hqr before c after hs j hpos hj := by
    subst hqr
    exact pulls_append (isLazy_append.1 hp).2 hs hpos hj

/-- Everything that a source gives is gone through once and in order. -/
theorem trace_source (hp : p.IsLazy) (asked : α → ε) (as : List α) :
    p.trace (source asked as) = as.flatMap fun a => p.trace (source asked [a]) := by
  simp only [trace_eq, history_source]
  induction as with
  | nil => rw [List.flatMap_nil, List.flatMap_nil, onHistory_nil hp, eventsOf_nil]
  | cons a as ih =>
    rw [List.flatMap_cons, onHistory_append hp, eventsOf_append, ih, List.flatMap_cons,
      List.flatMap_singleton]

theorem run_append_reverse (q : Pipeline ε α γ) (r : Pipeline ε γ β) (s : Sequence ε α) :
    (q.append (.reverse r)).run s =
      (q.trace s ++ (r.run (ofList (q.onList s.items).reverse)).1,
        (r.run (ofList (q.onList s.items).reverse)).2) := by
  rw [run_append, run, trace, List.append_assoc, ← items_run, toList_eq]

theorem run_append_rebuild (q : Pipeline ε α γ) (r : Pipeline ε γ β) (s : Sequence ε α) :
    (q.append (.rebuild r)).run s =
      (q.trace s ++ (r.run (ofList (q.onList s.items))).1,
        (r.run (ofList (q.onList s.items))).2) := by
  rw [run_append, run, trace, List.append_assoc, ← items_run, toList_eq]

end Pipeline

end Sequence

namespace Numbers

open Sequence

/-- The steps of a computation on numbers as a pipeline. -/
def pipeline : List Step → Pipeline Event Int Int
  | [] => .nil
  | .add k :: steps => .step (.map .add (· + k)) (pipeline steps)
  | .mul k :: steps => .step (.map .mul (· * k)) (pipeline steps)
  | .mod m r :: steps => .step (.filter .mod fun n => n % m == r) (pipeline steps)
  | .half :: steps =>
    .step (.filterMap .half fun n => if n % 2 = 0 then some (n / 2) else none) (pipeline steps)
  | .copies k :: steps => .step (.flatMap .copies fun n => .replicate n k) (pipeline steps)
  | .upto :: steps =>
    .step (.flatMap .upto fun n => (Sequence.countUp 1 n.toNat).observe .sub) (pipeline steps)
  | .reverse :: steps => .reverse (pipeline steps)
  | .rebuild :: steps => .rebuild (pipeline steps)

theorem through_stages (steps : List Step) (s : Sequence Event Int) :
    s.through (steps.flatMap Step.stages) = (pipeline steps).run s := by
  induction steps generalizing s with
  | nil => rfl
  | cons step steps ih =>
    rw [List.flatMap_cons]
    cases step with
    | add | mul | mod | half | copies | upto =>
      simp only [Step.stages, List.cons_append, List.nil_append, through, Stage.apply, ih, pipeline,
        Pipeline.run, Lazy.apply]
    | reverse | rebuild =>
      simp only [Step.stages, List.cons_append, List.nil_append, through, Stage.apply, ih, pipeline,
        Pipeline.run]

/-- A run on numbers is the run of its pipeline on the source, and then the question is put. -/
theorem run_eq (items : List Int) (steps : List Step) (ending : Ending) :
    run items steps ending =
      (((pipeline steps).run (source .source items)).1 ++
          (ending.ask ((pipeline steps).run (source .source items)).2).1,
        (ending.ask ((pipeline steps).run (source .source items)).2).2) := by
  simp only [run, through_stages, source]

end Numbers

namespace Sequence

variable {ε α β : Type}

/-- A pipeline over a list answers all questions as the composition of its list functions does. If
no step needs all items at once it does no more than the answer takes, and a step that does goes
through all that comes before it, and then the rest goes on from a list. -/
theorem pipelines_on_demand (asked : α → ε) (as : List α) (p : Pipeline ε α β) :
    Answers (p.run (source asked as)).2 (p.onList as) ∧
    (p.IsLazy → OnDemand p (source asked as)) ∧
    ∀ {γ : Type} (q : Pipeline ε α γ) (r : Pipeline ε γ β),
      (p = q.append (.reverse r) → p.run (source asked as) =
        (q.trace (source asked as) ++ (r.run (ofList (q.onList as).reverse)).1,
          (r.run (ofList (q.onList as).reverse)).2)) ∧
      (p = q.append (.rebuild r) → p.run (source asked as) =
        (q.trace (source asked as) ++ (r.run (ofList (q.onList as))).1,
          (r.run (ofList (q.onList as))).2)) ∧
      (q.IsLazy →
        q.trace (source asked as) = as.flatMap fun a => q.trace (source asked [a])) := by
  have hitems := items_source asked as
  refine ⟨?_, fun hp => Pipeline.onDemand hp _, fun q r => ⟨?_, ?_, fun hq => ?_⟩⟩
  · have hanswers := answers_items (p.run (source asked as)).2
    rwa [Pipeline.items_run, hitems] at hanswers
  · rintro rfl
    rw [Pipeline.run_append_reverse, hitems]
  · rintro rfl
    rw [Pipeline.run_append_rebuild, hitems]
  · exact Pipeline.trace_source hq asked as

/-- The second copy of 2 comes before 3 is asked for; turned round, the numbers are all asked for
even if no question follows. -/
theorem pipelines_on_demand_copies :
    Numbers.run [1, 2, 3] [.mod 2 0, .copies 2] (.pull 2) =
      ([.source 1, .mod 1, .source 2, .mod 2, .copies 2], .numbers [some 2, some 2]) ∧
    Numbers.run [1, 2] [.reverse, .add 1] .drop = ([.source 1, .source 2], .nothing) := by
  constructor
  · obtain ⟨hanswers, hlazy, -⟩ := pipelines_on_demand Numbers.Event.source [1, 2, 3]
      (Numbers.pipeline [.mod 2 0, .copies 2])
    have hdemand := hlazy trivial
    have hseen := hdemand.pulls_within .nil _ rfl
      [.event (.source 1), .item 1, .event (.source 2)] 2 [.event (.source 3), .item 3] rfl 2
      (by decide) (by decide)
    rw [Numbers.run_eq, hdemand.built_eq]
    exact Prod.ext hseen (congrArg Numbers.Answer.numbers (hanswers.pulls 2))
  · obtain ⟨-, -, hforced⟩ := pipelines_on_demand Numbers.Event.source [1, 2]
      (Numbers.pipeline [.reverse, .add 1])
    rw [Numbers.run_eq, (hforced .nil (Numbers.pipeline [.add 1])).1 rfl]
    rfl

end Sequence

end MarkupTree
