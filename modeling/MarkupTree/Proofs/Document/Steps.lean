import MarkupTree.Document.InPlace
import MarkupTree.Proofs.Document.WellFormed

/-!
# Steps in place

On a well-formed document every step in place runs to its end, with no fault, and makes of the
document what the step makes of it, as long as the step is taken where it belongs: on a live node,
with a detached child.
-/

namespace MarkupTree.InPlace

open Document

variable {d e : Document} {x y p c a : NodeId} {α β : Type}

/-! ### One thing after another -/

theorem bind_of_ok {ε σ : Type} {m : EStateM ε σ α} {s t : σ} {v : α} (h : m s = .ok v t)
    (f : α → EStateM ε σ β) : (m >>= f) s = f v t := by simp [bind, EStateM.bind, h]

theorem bind_congr {m m' : Run α} (h : m d = m' d) (f : α → Run β) :
    (m >>= f) d = (m' >>= f) d := by simp only [bind, EStateM.bind, h]

theorem get_bind {ε σ : Type} (f : σ → EStateM ε σ β) (s : σ) : (get >>= f) s = f s s := rfl

theorem forM_of_ok {g : Document → α → Document} {m : α → Run Unit} {I : Document → List α → Prop}
    (step : ∀ d b bs, I d (b :: bs) → m b d = .ok () (g d b) ∧ I (g d b) bs) :
    ∀ {bs : List α} {d : Document}, I d bs → bs.forM m d = .ok () (bs.foldl g d)
  | [], _, _ => rfl
  | b :: bs, d, h => by
    obtain ⟨hm, hI⟩ := step d b bs h
    show (m b >>= fun _ => bs.forM m) d = _
    rw [bind_of_ok hm, forM_of_ok step hI, List.foldl_cons]

/-! ### Reading and writing nodes -/

theorem fetch_of_get? {node : Node} (h : d.get? x = some node) : fetch x d = .ok node d := by
  rw [fetch, get_bind, h]; rfl

theorem change_of_contains (h : d.contains x = true) (f : Node → Node) :
    change x f d = .ok () (d.modify x f) := by
  rw [change, get_bind, if_pos h]; rfl

theorem changeChildren_of_some {f : List NodeId → Option (List NodeId)} {cs : List NodeId}
    (hx : d.contains x = true) (hf : f (d.children x) = some cs) :
    changeChildren x f d = .ok () (d.setChildren x cs) := by
  obtain ⟨node, hn⟩ := contains_iff.1 hx
  have hchildren : node.children = d.children x := by rw [children, hn]
  rw [changeChildren, bind_of_ok (fetch_of_get? hn), hchildren, hf]
  exact change_of_contains hx _

theorem takeChildren_of_contains (hx : d.contains x = true)
    (hlive : ∀ y ∈ d.children x, d.contains y = true) :
    takeChildren x d = .ok (d.children x) (d.orphan x) := by
  obtain ⟨node, hn⟩ := contains_iff.1 hx
  have hchildren : node.children = d.children x := by rw [children, hn]
  have hloop : (d.children x).forM (fun c => change c fun node => { node with parent? := none })
      (d.setChildren x []) = .ok () (d.orphan x) :=
    forM_of_ok (g := (·.setParent · none)) (I := fun d cs => ∀ y ∈ cs, d.contains y = true)
      (fun d c cs h => ⟨change_of_contains (h c List.mem_cons_self) _, fun y hy => by
        rw [contains_setParent]; exact h y (List.mem_cons_of_mem c hy)⟩)
      fun y hy => by rw [contains_setChildren]; exact hlive y hy
  have hnil : change x (fun node => { node with children := [] }) d =
      .ok () (d.setChildren x []) := change_of_contains hx _
  rw [takeChildren, bind_of_ok (fetch_of_get? hn), hchildren, bind_of_ok hnil, bind_of_ok hloop]
  rfl

theorem linkAt_of_detached (hp : d.contains p = true) (hc : d.contains c = true)
    (hup : d.parent? c = none) (n : Nat) : linkAt p n c d = .ok () (d.linkAt p n c) := by
  have hput : putAt (min n (d.children p).length) c (d.children p) =
      some ((d.children p).take n ++ c :: (d.children p).drop n) := by
    rw [putAt, if_pos (Nat.min_le_right _ _)]
    rcases Nat.le_total n (d.children p).length with hn | hn
    · rw [Nat.min_eq_left hn]
    · rw [Nat.min_eq_right hn, List.take_of_length_le hn, List.drop_of_length_le hn,
        List.take_length, List.drop_length]
  have hchange : changeChildren p (fun cs => putAt (min n cs.length) c cs) d =
      .ok () (d.setChildren p ((d.children p).take n ++ c :: (d.children p).drop n)) :=
    changeChildren_of_some hp hput
  rw [linkAt, get_bind, hup, if_neg (by simp), bind_of_ok hchange]
  exact change_of_contains (by rwa [contains_setChildren]) _

/-- Detached nodes are put below `p` one after the other. -/
theorem forM_linkAt_of_detached (pos : Document → β → Nat) (child : β → NodeId) {bs : List β}
    (hp : d.contains p = true) (hnd : (bs.map child).Nodup)
    (hbs : ∀ b ∈ bs, d.contains (child b) = true ∧ d.parent? (child b) = none) :
    bs.forM (fun b => get >>= fun e => linkAt p (pos e b) (child b)) d =
      .ok () (bs.foldl (fun e b => e.linkAt p (pos e b) (child b)) d) := by
  refine forM_of_ok (I := fun d bs => d.contains p = true ∧ (bs.map child).Nodup ∧
    ∀ b ∈ bs, d.contains (child b) = true ∧ d.parent? (child b) = none) (fun d b bs h => ?_)
    ⟨hp, hnd, hbs⟩
  obtain ⟨hp, hnd, hbs⟩ := h
  obtain ⟨hc, hup⟩ := hbs b List.mem_cons_self
  obtain ⟨hmem, hnd⟩ := List.nodup_cons.1 (List.map_cons ▸ hnd)
  refine ⟨?_, ?_, hnd, fun b' hb' => ?_⟩
  · rw [get_bind, linkAt_of_detached hp hc hup]
  · rwa [contains_linkAt]
  · obtain ⟨hlive, hup'⟩ := hbs b' (List.mem_cons_of_mem b hb')
    have hne : child b' ≠ child b := fun e => hmem (e ▸ List.mem_map_of_mem hb')
    rw [contains_linkAt, parent?_linkAt hc, Function.update_of_ne hne]
    exact ⟨hlive, hup'⟩

theorem adopt_of_detached {cs : List NodeId} (hp : d.contains p = true) (hnd : cs.Nodup)
    (hcs : ∀ c ∈ cs, d.contains c = true ∧ d.parent? c = none) :
    adopt p cs d = .ok () (d.adopt p cs) := by
  rw [adopt_eq_foldl]
  exact forM_linkAt_of_detached (fun e _ => (e.children p).length) id hp
    (by rwa [List.map_id]) hcs

/-! ### Walking and reclaiming -/

theorem climbLoop_eq : ∀ {n : Nat} {x : NodeId}, (d.climb n x).length < n →
    climbLoop a n (some x) d = .ok (a == x || (d.climb n x).contains a) d
  | n + 1, x, h => by
    rw [climbLoop]
    by_cases hxa : x = a
    · rw [if_pos hxa, hxa, beq_self_eq_true]; rfl
    · rw [if_neg hxa, get_bind, beq_false_of_ne (Ne.symm hxa), Bool.false_or]
      cases hp : d.parent? x with
      | none => rw [climb_of_none hp, climbLoop]; rfl
      | some p =>
        rw [climb_of_some hp] at h ⊢
        rw [List.length_cons] at h
        rw [climbLoop_eq (by omega), List.contains_cons]

theorem isAncestorOrSelf_eq (h : d.Linked) (a x : NodeId) :
    isAncestorOrSelf a x d = .ok (d.isAncestorOrSelf a x) d := by
  have hlen : ∀ n, (d.climb n x).length ≤ d.slots.size := by
    intro n
    by_cases hx : d.contains x = true
    · exact Nat.le_of_lt (h.length_climb_lt hx n)
    · rw [climb_of_none (parent?_of_stale hx)]
      exact Nat.zero_le _
  have hstable : d.climb (d.slots.size + 1) x = d.climb d.slots.size x :=
    climb_succ_of_length (hlen _)
  rw [isAncestorOrSelf, get_bind, climbLoop_eq (Nat.lt_succ_of_le (hlen _)), hstable]
  rfl

theorem freeLoop_of_pops : ∀ {order work : List NodeId} {n : Nat} {d : Document},
    Pops d work order → order.Nodup → (∀ y ∈ order, d.contains y = true) → d.Stored →
    order.length ≤ n → freeLoop n work d = .ok () (order.foldl release d)
  | _, _, n, d, .nil, _, _, _, _ => by cases n <;> rfl
  | _, _, 0, _, .cons _, _, _, _, hn => absurd hn (by simp)
  | _, _, n + 1, d, @Pops.cons _ x rest order hpops, hnd, hlive, hs, hn => by
    obtain ⟨hx, hnd⟩ := List.nodup_cons.1 hnd
    have hxd := hlive x List.mem_cons_self
    have hne : ∀ y ∈ order, y ≠ x := fun y hy e => hx (e ▸ hy)
    obtain ⟨node, hnode⟩ := contains_iff.1 hxd
    obtain ⟨slot, hslot, hgen, hin⟩ := exists_slot hnode
    have hchildren : node.children = d.children x := by rw [children, hnode]
    have hpos := hs.live_pos hxd
    rw [freeLoop, get_bind, hslot]
    simp only [hgen, hin, ne_eq, not_true_eq_false, if_false, get_bind]
    rw [if_neg (by omega), hchildren]
    refine freeLoop_of_pops (d := d.release x) ?_ hnd (fun y hy => ?_) (hs.release hxd)
      (by simpa using hn)
    · exact hpops.congr fun y hy => children_release hxd (hne y hy)
    · rw [contains_release hxd (hne y hy)]
      exact hlive y (List.mem_cons_of_mem x hy)

section
variable (h : d.WellFormed)
include h

theorem unlink_eq (hx : d.contains x = true) : unlink x d = .ok () (d.unlink x) := by
  have hpos := position?_eq h.linked.forest x
  rw [unlink, get_bind]
  cases hp : d.parent? x with
  | none =>
    rw [hp] at hpos
    rw [hpos, Document.unlink, hpos]
    exact change_of_contains hx _
  | some p =>
    have hmem : x ∈ d.children p := h.linked.mem_children.2 hp
    have hlt := List.idxOf_lt_length_of_mem hmem
    rw [hp] at hpos
    rw [hpos, Document.unlink, hpos]
    have hremove : removeAt ((d.children p).idxOf x) (d.children p) =
      some ((d.children p).eraseIdx ((d.children p).idxOf x)) := if_pos hlt
    simp only [Option.map_some]
    rw [bind_of_ok (changeChildren_of_some (h.linked.contains_parent hp) hremove)]
    exact change_of_contains (by rwa [contains_setChildren]) _

theorem takeChildren_eq (hx : d.contains x = true) :
    takeChildren x d = .ok (d.children x) (d.orphan x) :=
  takeChildren_of_contains hx fun _ hy => h.linked.contains_child hy

theorem freeSubtree_eq (hx : d.contains x = true) (hup : d.parent? x = none) :
    freeSubtree x d = .ok () (d.reclaim x) := by
  obtain ⟨hnd, hlive⟩ := h.linked.live_reverse_postorder hx
  rw [freeSubtree, get_bind, hup, if_neg (by simp), get_bind, h.linked.reclaim_eq hx]
  exact freeLoop_of_pops (h.linked.pops_singleton x) hnd hlive h.stored (length_le_size hnd hlive)

end

end MarkupTree.InPlace
