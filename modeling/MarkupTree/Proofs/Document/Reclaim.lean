import MarkupTree.Proofs.Document.Ancestry

/-!
# New nodes and reclaimed ones

A new node has no links, so all links stay. Reclaiming a node takes it away with the nodes below
it, one after the other in the order in which they come to the top of the work list (`Pops`), which
is the reversed `postorder`; the nodes that stay keep all they have.
-/

namespace MarkupTree.Document

variable {d e : Document} {x y p : NodeId}

/-! ### New nodes -/

section
variable (h : d.Stored) (c : Content)
include h

theorem parent?_alloc : (d.alloc c).1.parent? = d.parent? := by
  funext y
  have hnew := h.not_contains_alloc c
  rw [parent?, h.get?_alloc]
  split
  · subst y; rw [parent?_of_stale hnew]; rfl
  · rfl

theorem children_alloc : (d.alloc c).1.children = d.children := by
  funext y
  have hnew := h.not_contains_alloc c
  rw [children_eq_getD, h.get?_alloc]
  split
  · subst y; rw [children_of_stale hnew]; rfl
  · rw [children_eq_getD]

theorem content?_alloc (y : NodeId) :
    (d.alloc c).1.content? y = if y = (d.alloc c).2 then some c else d.content? y := by
  rw [content?, h.get?_alloc]
  split <;> rfl

theorem contains_alloc (y : NodeId) :
    (d.alloc c).1.contains y = true ↔ y = (d.alloc c).2 ∨ d.contains y = true := by
  rw [contains, h.get?_alloc]
  split
  · simp [*]
  · simp [*, contains]

theorem kind?_alloc_of_ne (hy : y ≠ (d.alloc c).2) : (d.alloc c).1.kind? y = d.kind? y := by
  rw [kind?, content?_alloc h, if_neg hy, kind?]

theorem Linked.alloc (hl : d.Linked) : (d.alloc c).1.Linked := by
  have hnew := h.not_contains_alloc c
  refine ⟨?_, fun {y} hy => ?_, fun {y} hy => ?_⟩
  · rw [parent?_alloc h, children_alloc h]; exact hl.forest
  · rw [children_alloc h]
    by_cases hyn : y = (d.alloc c).2
    · rw [hyn]; exact children_of_stale hnew
    · rw [isText_iff, kind?_alloc_of_ne h c hyn] at hy
      exact hl.text (isText_iff.2 hy)
  · rw [parent?_alloc h]
    by_cases hyn : y = (d.alloc c).2
    · rw [hyn]; exact parent?_of_stale hnew
    · rw [isDocument_iff, kind?_alloc_of_ne h c hyn] at hy
      exact hl.document (isDocument_iff.2 hy)

end

/-! ### Post-order -/

/-- The nodes at most `fuel` levels below a node, each behind the nodes below it. -/
def descendPost (d : Document) : Nat → NodeId → List NodeId
  | 0, _ => []
  | fuel + 1, id => (d.children id).flatMap fun child => d.descendPost fuel child ++ [child]

/-- A node and the nodes below it, children from left to right and each after the nodes below
it. -/
def postorder (d : Document) (id : NodeId) : List NodeId := d.descendPost d.slots.size id ++ [id]

/-! ### The work list -/

/-- `order` is the order in which the nodes of a work list and those below them come to its top. -/
inductive Pops (d : Document) : List NodeId → List NodeId → Prop
  | nil : Pops d [] []
  | cons {x : NodeId} {rest order : List NodeId}
      (h : Pops d ((d.children x).reverse ++ rest) order) : Pops d (x :: rest) (x :: order)

theorem Pops.congr {work order : List NodeId} (h : Pops d work order)
    (he : ∀ y ∈ order, e.children y = d.children y) : Pops e work order := by
  induction h with
  | nil => exact .nil
  | @cons x rest order _ ih =>
    refine .cons ?_
    rw [he x List.mem_cons_self]
    exact ih fun y hy => he y (List.mem_cons_of_mem x hy)

/-- Nodes on the work list come to its top from right to left, each with what it brings. -/
theorem Pops.reverse_append {rest tail : List NodeId} (ht : Pops d rest tail) :
    ∀ cs : List NodeId, (∀ c ∈ cs, ∀ rest tail, Pops d rest tail →
      Pops d (c :: rest) ((d.postorder c).reverse ++ tail)) →
        Pops d (cs.reverse ++ rest) ((cs.flatMap d.postorder).reverse ++ tail)
  | [], _ => ht
  | c :: cs, hcs => by
    have hc := hcs c List.mem_cons_self rest tail ht
    have hcs := hc.reverse_append cs fun c' hc' => hcs c' (List.mem_cons_of_mem c hc')
    rw [List.reverse_cons, List.append_assoc, List.flatMap_cons, List.reverse_append,
      List.append_assoc]
    exact hcs

theorem children_release (hx : d.contains x = true) (hy : y ≠ x) :
    (d.release x).children y = d.children y := by
  rw [children_eq_getD, get?_release hx, if_neg hy, children_eq_getD]

theorem contains_release (hx : d.contains x = true) (hy : y ≠ x) :
    (d.release x).contains y = d.contains y := by
  rw [contains, get?_release hx, if_neg hy, contains]

/-- With a bound that is large enough the work list is worked off to its end. -/
theorem reclaimList_of_pops : ∀ {order work : List NodeId} {n : Nat} {d : Document},
    Pops d work order → order.Nodup → (∀ y ∈ order, d.contains y = true) → order.length ≤ n →
    d.reclaimList n work = order.foldl release d
  | _, _, n, d, .nil, _, _, _ => by cases n <;> rfl
  | _, _, 0, _, .cons _, _, _, hn => absurd hn (by simp)
  | _, _, n + 1, d, @Pops.cons _ x rest order hpops, hnd, hlive, hn => by
    obtain ⟨hx, hnd⟩ := List.nodup_cons.1 hnd
    have hxd := hlive x List.mem_cons_self
    have hne : ∀ y ∈ order, y ≠ x := fun y hy e => hx (e ▸ hy)
    obtain ⟨node, hnode⟩ := contains_iff.1 hxd
    have hchildren : node.children = d.children x := by simp only [children, hnode]
    rw [reclaimList, hnode]
    simp only [hchildren, List.foldl_cons]
    refine reclaimList_of_pops ?_ hnd (fun y hy => ?_) (by simpa using hn)
    · exact hpops.congr fun y hy => children_release hxd (hne y hy)
    · rw [contains_release hxd (hne y hy)]
      exact hlive y (List.mem_cons_of_mem x hy)

theorem get?_foldl_release : ∀ {order : List NodeId} {d : Document}, order.Nodup →
    (∀ y ∈ order, d.contains y = true) → ∀ y,
    (order.foldl release d).get? y = if y ∈ order then none else d.get? y
  | [], _, _, _, y => by simp
  | x :: order, d, hnd, hlive, y => by
    obtain ⟨hx, hnd⟩ := List.nodup_cons.1 hnd
    have hxd := hlive x List.mem_cons_self
    have hlive' : ∀ z ∈ order, (d.release x).contains z = true := fun z hz => by
      rw [contains_release hxd fun e => hx (e ▸ hz)]
      exact hlive z (List.mem_cons_of_mem x hz)
    rw [List.foldl_cons, get?_foldl_release hnd hlive', get?_release hxd]
    by_cases hyx : y = x
    · simp [hyx]
    · simp [hyx]

theorem free_foldl_release : ∀ (order : List NodeId) (d : Document),
    (order.foldl release d).free = (order.map (·.index)).reverse ++ d.free
  | [], _ => rfl
  | x :: order, d => by
    rw [List.foldl_cons, free_foldl_release order, List.map_cons, List.reverse_cons,
      List.append_assoc]
    rfl

theorem live_foldl_release : ∀ (order : List NodeId) (d : Document),
    (order.foldl release d).live = d.live - order.length
  | [], _ => rfl
  | x :: order, d => by
    rw [List.foldl_cons, live_foldl_release order, List.length_cons, Nat.add_comm, ← Nat.sub_sub]
    rfl

theorem Stored.foldl_release : ∀ {order : List NodeId} {d : Document}, d.Stored → order.Nodup →
    (∀ y ∈ order, d.contains y = true) → (order.foldl Document.release d).Stored
  | [], _, h, _, _ => h
  | x :: order, d, h, hnd, hlive => by
    obtain ⟨hx, hnd⟩ := List.nodup_cons.1 hnd
    have hxd := hlive x List.mem_cons_self
    refine (h.release hxd).foldl_release hnd fun z hz => ?_
    rw [contains_release hxd fun e => hx (e ▸ hz)]
    exact hlive z (List.mem_cons_of_mem x hz)

namespace Linked

/-- The bound of a walk down in post-order does not matter either. -/
theorem descendPost_succ (h : d.Linked) : ∀ (n : Nat) (x : NodeId),
    d.slots.size ≤ n + (d.ancestors x).length → d.descendPost (n + 1) x = d.descendPost n x
  | 0, x, hn => by
    have hx : ¬ d.contains x = true := fun hx => by have := h.length_ancestors_lt hx; omega
    simp [descendPost, children_of_stale hx]
  | n + 1, x, hn => by
    rw [descendPost, descendPost]
    refine List.flatMap_congr fun c hc => ?_
    have := h.length_ancestors_of_some (h.mem_children.1 hc)
    rw [h.descendPost_succ n c (by omega)]

theorem postorder_eq (h : d.Linked) (x : NodeId) :
    d.postorder x = (d.children x).flatMap d.postorder ++ [x] := by
  have hsucc := h.descendPost_succ d.slots.size x (by omega)
  rw [postorder, ← hsucc, descendPost]
  rfl

/-- Where nothing at or below a node has other children, the post-order is the same. -/
theorem postorder_congr (h : d.Linked) (h' : e.Linked)
    (hsame : ∀ y ∈ x :: d.descendants x, e.children y = d.children y) :
    e.postorder x = d.postorder x := by
  induction x using h.down_induction with
  | step x ih =>
    rw [h.descendants_eq_flatMap] at hsame
    rw [h.postorder_eq, h'.postorder_eq, hsame x List.mem_cons_self]
    congr 1
    refine List.flatMap_congr fun c hc => ih c hc fun y hy => ?_
    exact hsame y (List.mem_cons_of_mem x (List.mem_flatMap.2 ⟨c, hc, hy⟩))

theorem postorder_perm (h : d.Linked) (x : NodeId) :
    (d.postorder x).Perm (x :: d.descendants x) := by
  induction x using h.down_induction with
  | step x ih =>
    rw [h.postorder_eq, h.descendants_eq_flatMap]
    exact (List.perm_append_singleton x _).trans ((List.Perm.flatMap_left _ ih).cons x)

theorem nodup_postorder (h : d.Linked) (x : NodeId) : (d.postorder x).Nodup :=
  (h.postorder_perm x).nodup_iff.2 (h.nodup_cons_descendants x)

theorem mem_postorder (h : d.Linked) : y ∈ d.postorder x ↔ y ∈ x :: d.descendants x :=
  (h.postorder_perm x).mem_iff

theorem contains_of_mem_postorder (h : d.Linked) (hx : d.contains x = true)
    (hy : y ∈ d.postorder x) : d.contains y = true := by
  rcases List.mem_cons.1 (h.mem_postorder.1 hy) with hyx | hy
  · rw [hyx]; exact hx
  · exact h.contains_of_mem_descendants hy

/-- A node brings itself and the nodes below it to the top of the work list, the reverse of their
post-order. -/
theorem pops_postorder (h : d.Linked) (x : NodeId) : ∀ rest tail, Pops d rest tail →
    Pops d (x :: rest) ((d.postorder x).reverse ++ tail) := by
  induction x using h.down_induction with
  | step x ih =>
    intro rest tail ht
    rw [h.postorder_eq, List.reverse_append]
    exact .cons (ht.reverse_append (d.children x) ih)

theorem pops_singleton (h : d.Linked) (x : NodeId) : Pops d [x] (d.postorder x).reverse := by
  simpa using h.pops_postorder x [] [] .nil

/-- The nodes that are released are live, and none comes twice. -/
theorem live_reverse_postorder (h : d.Linked) (hx : d.contains x = true) :
    (d.postorder x).reverse.Nodup ∧ ∀ y ∈ (d.postorder x).reverse, d.contains y = true :=
  ⟨List.nodup_reverse.2 (h.nodup_postorder x),
    fun _ hy => h.contains_of_mem_postorder hx (List.mem_reverse.1 hy)⟩

/-- Reclaiming a node releases it and the nodes below it, each once. -/
theorem reclaim_eq (h : d.Linked) (hx : d.contains x = true) :
    d.reclaim x = (d.postorder x).reverse.foldl release d := by
  obtain ⟨hnd, hlive⟩ := h.live_reverse_postorder hx
  exact reclaimList_of_pops (h.pops_singleton x) hnd hlive (length_le_size hnd hlive)

theorem get?_reclaim (h : d.Linked) (hx : d.contains x = true) (y : NodeId) :
    (d.reclaim x).get? y = if y ∈ x :: d.descendants x then none else d.get? y := by
  obtain ⟨hnd, hlive⟩ := h.live_reverse_postorder hx
  rw [h.reclaim_eq hx, get?_foldl_release hnd hlive]
  simp only [List.mem_reverse, h.mem_postorder]

theorem stored_reclaim (h : d.Linked) (hs : d.Stored) (hx : d.contains x = true) :
    (d.reclaim x).Stored := by
  obtain ⟨hnd, hlive⟩ := h.live_reverse_postorder hx
  rw [h.reclaim_eq hx]
  exact hs.foldl_release hnd hlive

/-- The slot that is reclaimed last is the first to be used again. -/
theorem free_reclaim (h : d.Linked) (hx : d.contains x = true) :
    (d.reclaim x).free = (d.postorder x).map (·.index) ++ d.free := by
  rw [h.reclaim_eq hx, free_foldl_release, List.map_reverse, List.reverse_reverse]

theorem size_reclaim (h : d.Linked) (hs : d.Stored) (hx : d.contains x = true) :
    (d.reclaim x).size + (x :: d.descendants x).length = d.size := by
  obtain ⟨hnd, hlive⟩ := h.live_reverse_postorder hx
  have hle := hs.length_le_live hnd hlive
  rw [List.length_reverse, (h.postorder_perm x).length_eq] at hle
  rw [size, h.reclaim_eq hx, live_foldl_release, List.length_reverse,
    (h.postorder_perm x).length_eq]
  exact Nat.sub_add_cancel hle

section
variable (h : d.Linked) (hx : d.contains x = true)
include h hx

theorem parent?_reclaim :
    (d.reclaim x).parent? = fun y => if y ∈ x :: d.descendants x then none else d.parent? y := by
  funext y
  rw [Document.parent?, h.get?_reclaim hx]
  split <;> rfl

theorem children_reclaim :
    (d.reclaim x).children = fun y => if y ∈ x :: d.descendants x then [] else d.children y := by
  funext y
  rw [children_eq_getD, h.get?_reclaim hx]
  split
  · rfl
  · rw [children_eq_getD]

theorem content?_reclaim (y : NodeId) :
    (d.reclaim x).content? y = if y ∈ x :: d.descendants x then none else d.content? y := by
  rw [Document.content?, h.get?_reclaim hx]
  split <;> rfl

theorem contains_reclaim (y : NodeId) :
    (d.reclaim x).contains y = true ↔ y ∉ x :: d.descendants x ∧ d.contains y = true := by
  rw [Document.contains, h.get?_reclaim hx]
  split <;> simp_all [Document.contains]

theorem kind?_reclaim (y : NodeId) :
    (d.reclaim x).kind? y = if y ∈ x :: d.descendants x then none else d.kind? y := by
  rw [Document.kind?, h.content?_reclaim hx]
  split <;> rfl

theorem reclaim (hup : d.parent? x = none) : (d.reclaim x).Linked := by
  refine ⟨?_, fun {y} hy => ?_, fun {y} hy => ?_⟩
  · rw [h.parent?_reclaim hx, h.children_reclaim hx]
    refine h.forest.prune fun y p hp => ?_
    rw [h.mem_cons_descendants, h.mem_cons_descendants]
    constructor
    · intro hy
      rcases hy.cases with rfl | ⟨q, hq, hqx⟩
      · rw [hup] at hp; cases hp
      · rw [hp, Option.some.injEq] at hq
        exact hq ▸ hqx
    · exact fun hpx => .step hp hpx
  · rw [isText_iff, h.kind?_reclaim hx, Option.ite_none_left_eq_some] at hy
    simp only [h.children_reclaim hx, h.text (isText_iff.2 hy.2), ite_self]
  · rw [isDocument_iff, h.kind?_reclaim hx, Option.ite_none_left_eq_some] at hy
    simp only [h.parent?_reclaim hx, h.document (isDocument_iff.2 hy.2), ite_self]

end

end Linked

end MarkupTree.Document
