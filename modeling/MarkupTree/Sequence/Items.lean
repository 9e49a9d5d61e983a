import MarkupTree.Sequence

/-!
# The items and the events of a sequence

A sequence is seen through its items and its events. Every step that takes the items one by one
does to them what the list function of the same name does, and a question that goes through all
items is the question to their list, with all events.
-/

namespace MarkupTree.Sequence

variable {ε α β : Type}

def items : Sequence ε α → List α
  | done => []
  | event _ next => (next ()).items
  | item a next => a :: (next ()).items
  | later next => (next ()).items

def events : Sequence ε α → List ε
  | done => []
  | event e next => e :: (next ()).events
  | item _ next => (next ()).events
  | later next => (next ()).events

@[simp] theorem items_ofList : ∀ as : List α, (ofList as : Sequence ε α).items = as
  | [] => rfl
  | a :: as => by simp [ofList, items, items_ofList as]

@[simp] theorem events_ofList : ∀ as : List α, (ofList as : Sequence ε α).events = []
  | [] => rfl
  | a :: as => by simp [ofList, events, events_ofList as]

@[simp] theorem items_replicate (a : α) :
    ∀ k : Nat, (replicate a k : Sequence ε α).items = List.replicate k a
  | 0 => rfl
  | k + 1 => by simp [replicate, items, items_replicate a k, List.replicate_succ]

@[simp] theorem items_countUp : ∀ (n : Int) (k : Nat),
    (countUp n k : Sequence ε Int).items = (List.range k).map fun (i : Nat) => n + (i : Int)
  | _, 0 => rfl
  | n, k + 1 => by
    simp [countUp, items, items_countUp (n + 1) k, List.range_succ_eq_map, Function.comp_def]
    omega

@[simp] theorem items_observe (f : α → ε) : ∀ s : Sequence ε α, (s.observe f).items = s.items
  | done => rfl
  | event _ next => by simp [observe, items, items_observe f (next ())]
  | item _ next => by simp [observe, items, items_observe f (next ())]
  | later next => by simp [observe, items, items_observe f (next ())]

@[simp] theorem items_map (f : α → β) : ∀ s : Sequence ε α, (s.map f).items = s.items.map f
  | done => rfl
  | event _ next => by simp [map, items, items_map f (next ())]
  | item _ next => by simp [map, items, items_map f (next ())]
  | later next => by simp [map, items, items_map f (next ())]

@[simp] theorem items_filterMap (f : α → Option β) :
    ∀ s : Sequence ε α, (s.filterMap f).items = s.items.filterMap f
  | done => rfl
  | event _ next => by simp [filterMap, items, items_filterMap f (next ())]
  | item a next => by cases h : f a <;> simp [filterMap, items, h, items_filterMap f (next ())]
  | later next => by simp [filterMap, items, items_filterMap f (next ())]

@[simp] theorem items_filter (p : α → Bool) :
    ∀ s : Sequence ε α, (s.filter p).items = s.items.filter p
  | done => rfl
  | event _ next => by simp [filter, items, items_filter p (next ())]
  | item a next => by cases h : p a <;> simp [filter, items, h, items_filter p (next ())]
  | later next => by simp [filter, items, items_filter p (next ())]

@[simp] theorem items_append (rest : Unit → Sequence ε α) :
    ∀ s : Sequence ε α, (s.append rest).items = s.items ++ (rest ()).items
  | done => rfl
  | event _ next => by simp [append, items, items_append rest (next ())]
  | item _ next => by simp [append, items, items_append rest (next ())]
  | later next => by simp [append, items, items_append rest (next ())]

@[simp] theorem items_flatMap (f : α → Sequence ε β) :
    ∀ s : Sequence ε α, (s.flatMap f).items = s.items.flatMap fun a => (f a).items
  | done => rfl
  | event _ next => by simp [flatMap, items, items_flatMap f (next ())]
  | item _ next => by simp [flatMap, items, items_flatMap f (next ())]
  | later next => by simp [flatMap, items, items_flatMap f (next ())]

theorem fold_eq (f : β → α → β) :
    ∀ (b : β) (s : Sequence ε α), s.fold f b = (s.events, s.items.foldl f b)
  | _, done => rfl
  | b, event _ next => by simp [fold, items, events, fold_eq f b (next ())]
  | b, item a next => by simp [fold, items, events, fold_eq f (f b a) (next ())]
  | b, later next => by simp [fold, items, events, fold_eq f b (next ())]

theorem toList_eq (s : Sequence ε α) : s.toList = (s.events, s.items) := by
  have h : ∀ as bs : List α, as.foldl (fun as a => a :: as) bs = as.reverse ++ bs := by
    intro as
    induction as with
    | nil => simp
    | cons a as ih => simp [ih]
  simp [toList, fold_eq, h]

theorem count_eq (s : Sequence ε α) : s.count = (s.events, s.items.length) := by
  have h : ∀ (as : List α) (n : Nat), as.foldl (fun n _ => n + 1) n = n + as.length := by
    intro as
    induction as with
    | nil => simp
    | cons a as ih => intro n; simp [ih]; omega
  simp [count, fold_eq, h]

end MarkupTree.Sequence
