import MarkupTree.Sequence.Items

/-!
# The history of a sequence

The history of a sequence is all that happens until it is exhausted, its events and its items in one
list. Every step that takes the items one by one puts moments of its own in the place of an item and
leaves the events where they are, and what `k` pulls show is the history up to the `k`-th item.
-/

namespace MarkupTree

/-- What happens at one time: an event is seen, or an item is given. -/
inductive Moment (ε α : Type) where
  | event (e : ε)
  | item (a : α)
deriving DecidableEq, Repr

namespace Moment

variable {ε α β γ : Type}

def event? : Moment ε α → Option ε
  | event e => some e
  | item _ => none

def item? : Moment ε α → Option α
  | event _ => none
  | item a => some a

/-- An event stays, an item becomes the moments that `f` makes of it. -/
def spread (f : α → List (Moment ε β)) : Moment ε α → List (Moment ε β)
  | event e => [event e]
  | item a => f a

/-- The history up to the item number `k`, or all of it if there are fewer. -/
def upTo : Nat → List (Moment ε α) → List (Moment ε α)
  | 0, _ => []
  | _ + 1, [] => []
  | k + 1, event e :: h => event e :: upTo (k + 1) h
  | k + 1, item a :: h => item a :: upTo k h

def eventsOf (h : List (Moment ε α)) : List ε := h.filterMap event?

def itemsOf (h : List (Moment ε α)) : List α := h.filterMap item?

variable {h h' : List (Moment ε α)} {k : Nat}

@[simp] theorem eventsOf_nil : eventsOf ([] : List (Moment ε α)) = [] := rfl

@[simp] theorem eventsOf_event (e : ε) : eventsOf (event e :: h) = e :: eventsOf h := rfl

@[simp] theorem eventsOf_item (a : α) : eventsOf (item a :: h) = eventsOf h := rfl

@[simp] theorem eventsOf_append : eventsOf (h ++ h') = eventsOf h ++ eventsOf h' :=
  List.filterMap_append

@[simp] theorem eventsOf_map_event (es : List ε) :
    eventsOf (es.map event : List (Moment ε α)) = es := by
  induction es with
  | nil => rfl
  | cons e es ih => rw [List.map_cons, eventsOf_event, ih]

@[simp] theorem itemsOf_nil : itemsOf ([] : List (Moment ε α)) = [] := rfl

@[simp] theorem itemsOf_event (e : ε) : itemsOf (event e :: h) = itemsOf h := rfl

@[simp] theorem itemsOf_item (a : α) : itemsOf (item a :: h) = a :: itemsOf h := rfl

@[simp] theorem itemsOf_append : itemsOf (h ++ h') = itemsOf h ++ itemsOf h' :=
  List.filterMap_append

@[simp] theorem itemsOf_map_event (es : List ε) :
    itemsOf (es.map event : List (Moment ε α)) = [] := by
  induction es with
  | nil => rfl
  | cons e es ih => rw [List.map_cons, itemsOf_event, ih]

@[simp] theorem itemsOf_map_item (as : List α) :
    itemsOf (as.map item : List (Moment ε α)) = as := by
  induction as with
  | nil => rfl
  | cons a as ih => rw [List.map_cons, itemsOf_item, ih]

theorem itemsOf_flatMap (f : α → List (Moment ε β)) : ∀ h : List (Moment ε α),
    itemsOf (h.flatMap (spread f)) = (itemsOf h).flatMap fun a => itemsOf (f a)
  | [] => rfl
  | event e :: h => by simpa [spread] using itemsOf_flatMap f h
  | item a :: h => by simpa [spread] using itemsOf_flatMap f h

theorem flatMap_spread (f : α → List (Moment ε β)) (g : β → List (Moment ε γ))
    (h : List (Moment ε α)) : (h.flatMap (spread f)).flatMap (spread g) =
      h.flatMap (spread fun a => (f a).flatMap (spread g)) := by
  rw [List.flatMap_assoc]
  congr 1
  funext m
  cases m <;> simp [spread]

/-! ### The first items of a history -/

theorem upTo_isPrefix_succ : ∀ (k : Nat) (h : List (Moment ε α)), upTo k h <+: upTo (k + 1) h
  | 0, h => by
    rw [upTo]
    exact List.nil_prefix
  | _ + 1, [] => List.prefix_rfl
  | k + 1, event e :: h => (List.prefix_cons_inj _).2 (upTo_isPrefix_succ (k + 1) h)
  | k + 1, item a :: h => (List.prefix_cons_inj _).2 (upTo_isPrefix_succ k h)

theorem upTo_isPrefix : ∀ (k : Nat) (h : List (Moment ε α)), upTo k h <+: h
  | 0, h => by
    rw [upTo]
    exact List.nil_prefix
  | _ + 1, [] => List.prefix_rfl
  | k + 1, event e :: h => (List.prefix_cons_inj _).2 (upTo_isPrefix (k + 1) h)
  | k + 1, item a :: h => (List.prefix_cons_inj _).2 (upTo_isPrefix k h)

/-- Asking for more items than there are goes through everything. -/
theorem upTo_of_lt : ∀ {k : Nat} {h : List (Moment ε α)}, (itemsOf h).length < k → upTo k h = h
  | _ + 1, [], _ => rfl
  | k + 1, event e :: h, hk => by
    rw [upTo, upTo_of_lt (h := h) hk]
  | k + 1, item a :: h, hk => by
    rw [upTo, upTo_of_lt (Nat.lt_of_succ_lt_succ hk)]

/-- As long as the first part has enough items, the second one is not looked at. -/
theorem upTo_append_of_le : ∀ {k : Nat} {h : List (Moment ε α)}, k ≤ (itemsOf h).length →
    upTo k (h ++ h') = upTo k h
  | 0, h, _ => by rw [upTo, upTo]
  | k + 1, event e :: h, hk => by
    rw [List.cons_append, upTo, upTo, upTo_append_of_le (h := h) hk]
  | k + 1, item a :: h, hk => by
    rw [List.cons_append, upTo, upTo, upTo_append_of_le (Nat.le_of_succ_le_succ hk)]

/-- An item of the second part comes after all of the first. -/
theorem upTo_append_add (hk : 0 < k) : ∀ h : List (Moment ε α),
    upTo ((itemsOf h).length + k) (h ++ h') = h ++ upTo k h'
  | [] => by rw [itemsOf_nil, List.length_nil, Nat.zero_add, List.nil_append, List.nil_append]
  | event e :: h => by
    have ih := upTo_append_add hk h
    obtain ⟨n, hn⟩ : ∃ n, (itemsOf h).length + k = n + 1 := ⟨_, (Nat.succ_pred (by omega)).symm⟩
    rw [itemsOf_event, hn, List.cons_append, upTo, ← hn, ih, List.cons_append]
  | item a :: h => by
    rw [itemsOf_item, List.length_cons, Nat.add_right_comm, List.cons_append, upTo,
      upTo_append_add hk h, List.cons_append]

end Moment

namespace Sequence

open Moment

variable {ε α β : Type}

/-- The events and the items in the order in which they happen. -/
def history : Sequence ε α → List (Moment ε α)
  | done => []
  | event e next => .event e :: (next ()).history
  | item a next => .item a :: (next ()).history
  | later next => (next ()).history

@[simp] theorem eventsOf_history : ∀ s : Sequence ε α, eventsOf s.history = s.events
  | done => rfl
  | event _ next => by simp [history, events, eventsOf_history (next ())]
  | item _ next => by simp [history, events, eventsOf_history (next ())]
  | later next => by simp [history, events, eventsOf_history (next ())]

@[simp] theorem itemsOf_history : ∀ s : Sequence ε α, itemsOf s.history = s.items
  | done => rfl
  | event _ next => by simp [history, items, itemsOf_history (next ())]
  | item _ next => by simp [history, items, itemsOf_history (next ())]
  | later next => by simp [history, items, itemsOf_history (next ())]

/-! ### Steps -/

@[simp] theorem history_ofList : ∀ as : List α,
    (ofList as : Sequence ε α).history = as.map Moment.item
  | [] => rfl
  | a :: as => by simp [ofList, history, history_ofList as]

theorem history_observe (f : α → ε) : ∀ s : Sequence ε α,
    (s.observe f).history = s.history.flatMap (spread fun a => [.event (f a), .item a])
  | done => rfl
  | event _ next => by simp [observe, history, spread, history_observe f (next ())]
  | item _ next => by simp [observe, history, spread, history_observe f (next ())]
  | later next => by simp [observe, history, history_observe f (next ())]

theorem history_map (f : α → β) : ∀ s : Sequence ε α,
    (s.map f).history = s.history.flatMap (spread fun a => [.item (f a)])
  | done => rfl
  | event _ next => by simp [map, history, spread, history_map f (next ())]
  | item _ next => by simp [map, history, spread, history_map f (next ())]
  | later next => by simp [map, history, history_map f (next ())]

theorem history_filter (p : α → Bool) : ∀ s : Sequence ε α,
    (s.filter p).history = s.history.flatMap (spread fun a => if p a then [.item a] else [])
  | done => rfl
  | event _ next => by simp [filter, history, spread, history_filter p (next ())]
  | item a next => by
    by_cases ha : p a = true <;> simp [filter, history, spread, ha, history_filter p (next ())]
  | later next => by simp [filter, history, history_filter p (next ())]

theorem history_filterMap (f : α → Option β) : ∀ s : Sequence ε α,
    (s.filterMap f).history = s.history.flatMap (spread fun a => (f a).toList.map .item)
  | done => rfl
  | event _ next => by simp [filterMap, history, spread, history_filterMap f (next ())]
  | item a next => by
    cases ha : f a <;> simp [filterMap, history, spread, ha, history_filterMap f (next ())]
  | later next => by simp [filterMap, history, history_filterMap f (next ())]

theorem history_append (rest : Unit → Sequence ε α) : ∀ s : Sequence ε α,
    (s.append rest).history = s.history ++ (rest ()).history
  | done => rfl
  | event _ next => by simp [append, history, history_append rest (next ())]
  | item _ next => by simp [append, history, history_append rest (next ())]
  | later next => by simp [append, history, history_append rest (next ())]

theorem history_flatMap (f : α → Sequence ε β) : ∀ s : Sequence ε α,
    (s.flatMap f).history = s.history.flatMap (spread fun a => (f a).history)
  | done => rfl
  | event _ next => by simp [flatMap, history, spread, history_flatMap f (next ())]
  | item _ next => by
    simp [flatMap, history, spread, history_append, history_flatMap f (next ())]
  | later next => by simp [flatMap, history, history_flatMap f (next ())]

/-! ### Questions -/

theorem pulls_done (k : Nat) :
    (done : Sequence ε α).pulls k = ([], List.replicate k none) := by
  cases k <;> rfl

theorem pulls_event (e : ε) (next : Unit → Sequence ε α) (k : Nat) :
    (event e next).pulls (k + 1) =
      (e :: ((next ()).pulls (k + 1)).1, ((next ()).pulls (k + 1)).2) := by
  rw [pulls, pulls, pull]
  rcases (next ()).pull with ⟨events, _ | ⟨a, rest⟩⟩ <;> rfl

theorem pulls_item (a : α) (next : Unit → Sequence ε α) (k : Nat) :
    (item a next).pulls (k + 1) = (((next ()).pulls k).1, some a :: ((next ()).pulls k).2) := rfl

theorem pulls_later (next : Unit → Sequence ε α) (k : Nat) :
    (later next).pulls (k + 1) = (next ()).pulls (k + 1) := rfl

/-- Pulls go through the history up to the last item they give, and give the items one by one. -/
theorem pulls_eq : ∀ (s : Sequence ε α) (k : Nat),
    s.pulls k = (eventsOf (upTo k s.history), (List.range k).map (s.items[·]?))
  | s, 0 => by
    rw [pulls, upTo]
    rfl
  | done, k + 1 => by
    rw [pulls_done]
    simp [history, items, upTo, List.map_const']
  | event e next, k + 1 => by
    rw [pulls_event, pulls_eq (next ()) (k + 1)]
    rfl
  | item a next, k + 1 => by
    rw [pulls_item, pulls_eq (next ()) k, List.range_succ_eq_map, List.map_cons, List.map_map]
    rfl
  | later next, k + 1 => by
    rw [pulls_later, pulls_eq (next ()) (k + 1)]
    rfl

theorem nth?_event (e : ε) (next : Unit → Sequence ε α) (k : Nat) :
    (event e next).nth? (k + 1) =
      (e :: ((next ()).nth? (k + 1)).1, ((next ()).nth? (k + 1)).2) := by
  cases k with
  | zero => rfl
  | succ k =>
    rw [nth?, nth?, pull]
    rcases (next ()).pull with ⟨events, _ | ⟨a, rest⟩⟩ <;> rfl

theorem nth?_later (next : Unit → Sequence ε α) (k : Nat) :
    (later next).nth? (k + 1) = (next ()).nth? (k + 1) := by
  cases k <;> rfl

/-- The question for an item goes through the history up to that item. -/
theorem nth?_succ : ∀ (s : Sequence ε α) (k : Nat),
    s.nth? (k + 1) = (eventsOf (upTo (k + 1) s.history), s.items[k]?)
  | done, k => by cases k <;> rfl
  | event e next, k => by
    rw [nth?_event, nth?_succ (next ()) k]
    rfl
  | item a next, 0 => by
    rw [history, upTo, upTo]
    rfl
  | item a next, k + 1 => by
    show (([] : List ε) ++ ((next ()).nth? (k + 1)).1, ((next ()).nth? (k + 1)).2) = _
    rw [nth?_succ (next ()) k]
    rfl
  | later next, k => by
    rw [nth?_later, nth?_succ (next ()) k]
    rfl

theorem last?_eq (s : Sequence ε α) : s.last? = (s.events, s.items.getLast?) := by
  have h : ∀ (as : List α) (a? : Option α),
      as.foldl (fun _ a => some a) a? = as.getLast?.or a? := by
    intro as
    induction as with
    | nil => exact fun _ => rfl
    | cons a as ih =>
      intro a?
      rw [List.foldl_cons, ih, List.getLast?_cons]
      cases as.getLast? <;> rfl
  rw [last?, fold_eq, h, Option.or_none]

end Sequence

end MarkupTree
