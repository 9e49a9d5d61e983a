import MarkupTree.Proofs.Document.WellFormed
import MarkupTree.Tree

/-!
# Nodes that show trees

A node shows a tree if it holds what stands at the top and its children show the branches one by
one. In a document with its links in order every node shows the one tree that is grown from it.
-/

namespace MarkupTree

namespace Document

variable {d e : Document} {x y : NodeId}

mutual

def Shows (d : Document) : Tree → NodeId → Prop
  | .document ts, x => d.content? x = some .document ∧ d.ShowsList ts (d.children x)
  | .element name as ts, x =>
    d.content? x = some (.element name as) ∧ d.ShowsList ts (d.children x)
  | .text s, x => d.content? x = some (.text s) ∧ d.children x = []

def ShowsList (d : Document) : List Tree → List NodeId → Prop
  | [], [] => True
  | t :: ts, x :: xs => d.Shows t x ∧ d.ShowsList ts xs
  | _, _ => False

end

theorem showsList_nil {xs : List NodeId} : d.ShowsList [] xs ↔ xs = [] := by
  cases xs with
  | nil => exact iff_of_true trivial rfl
  | cons => exact iff_of_false id (List.cons_ne_nil _ _)

theorem showsList_append {ts us : List Tree} : ∀ {xs ys : List NodeId}, d.ShowsList ts xs →
    d.ShowsList us ys → d.ShowsList (ts ++ us) (xs ++ ys) := by
  induction ts with
  | nil =>
    intro xs ys hx hy
    rw [showsList_nil.1 hx]
    exact hy
  | cons t ts ih =>
    intro xs ys hx hy
    cases xs with
    | nil => exact absurd hx id
    | cons x xs => exact ⟨hx.1, ih hx.2 hy⟩

theorem ShowsList.filter {p : Tree → Bool} {q : NodeId → Bool}
    (hpq : ∀ t x, d.Shows t x → p t = q x) : ∀ {ts : List Tree} {xs : List NodeId},
    d.ShowsList ts xs → d.ShowsList (ts.filter p) (xs.filter q)
  | [], [], _ => trivial
  | t :: ts, x :: xs, hs => by
    have ih := ShowsList.filter hpq hs.2
    rw [List.filter_cons, List.filter_cons, ← hpq t x hs.1]
    split
    · exact ⟨hs.1, ih⟩
    · exact ih

/-! ### A tree stays where nothing at or below its node changes -/

mutual

theorem Shows.frame (h : d.Linked) : ∀ {t : Tree} {x : NodeId}, d.Shows t x →
    (∀ y, Reaches d.parent? y x → e.content? y = d.content? y ∧ e.children y = d.children y) →
    e.Shows t x
  | .document ts, x, hs, hsame => by
    have hx := hsame x .refl
    refine ⟨hx.1.trans hs.1, ?_⟩
    rw [hx.2]
    exact ShowsList.frame h hs.2 fun c hc y hy =>
      hsame y (hy.trans (.step (h.mem_children.1 hc) .refl))
  | .element name as ts, x, hs, hsame => by
    have hx := hsame x .refl
    refine ⟨hx.1.trans hs.1, ?_⟩
    rw [hx.2]
    exact ShowsList.frame h hs.2 fun c hc y hy =>
      hsame y (hy.trans (.step (h.mem_children.1 hc) .refl))
  | .text s, x, hs, hsame => by
    have hx := hsame x .refl
    refine ⟨hx.1.trans hs.1, ?_⟩
    rw [hx.2]
    exact hs.2

theorem ShowsList.frame (h : d.Linked) : ∀ {ts : List Tree} {xs : List NodeId},
    d.ShowsList ts xs → (∀ x ∈ xs, ∀ y, Reaches d.parent? y x →
      e.content? y = d.content? y ∧ e.children y = d.children y) → e.ShowsList ts xs
  | [], [], _, _ => trivial
  | _ :: _, x :: _, hs, hsame =>
    ⟨Shows.frame h hs.1 (hsame x List.mem_cons_self),
      ShowsList.frame h hs.2 fun y hy => hsame y (List.mem_cons_of_mem x hy)⟩

end

/-! ### The tree that is grown from a node -/

namespace Linked

/-- Growing with a bound that covers the slots that are not above a node does not depend on it. -/
theorem grow_succ (h : d.Linked) : ∀ (n : Nat) (x : NodeId),
    d.slots.size ≤ n + (d.ancestors x).length → d.grow (n + 1) x = d.grow n x
  | 0, x, hn => by
    have hx : ¬ d.contains x = true := fun hx => by have := h.length_ancestors_lt hx; omega
    rw [grow, grow, get?_eq_none.2 (Bool.eq_false_iff.2 hx)]
  | n + 1, x, hn => by
    rw [grow, grow]
    cases hx : d.get? x with
    | none => rfl
    | some node =>
      have hchildren : node.children = d.children x := by rw [children, hx]
      have hsame : node.children.filterMap (d.grow (n + 1)) =
          node.children.filterMap (d.grow n) := by
        refine List.filterMap_congr fun c hc => ?_
        rw [hchildren] at hc
        have hlen := h.length_ancestors_of_some (h.mem_children.1 hc)
        exact h.grow_succ n c (by omega)
      simp only [hsame]

theorem tree?_eq (h : d.Linked) (x : NodeId) : d.tree? x =
    (d.content? x).map fun c => Tree.ofContent c ((d.children x).filterMap d.tree?) := by
  have hgrow : d.tree? x = d.grow (d.slots.size + 1) x :=
    (h.grow_succ _ x (Nat.le_add_right _ _)).symm
  rw [hgrow, grow, content?, children]
  cases d.get? x with
  | none => rfl
  | some node => rfl

end Linked

mutual

theorem Shows.tree?_eq (h : d.Linked) : ∀ {t : Tree} {x : NodeId}, d.Shows t x →
    d.tree? x = some t
  | .document ts, x, hs => by
    rw [h.tree?_eq, hs.1, Option.map_some, ShowsList.filterMap_tree? h hs.2]
    rfl
  | .element name as ts, x, hs => by
    rw [h.tree?_eq, hs.1, Option.map_some, ShowsList.filterMap_tree? h hs.2]
    rfl
  | .text s, x, hs => by
    rw [h.tree?_eq, hs.1]
    rfl

theorem ShowsList.filterMap_tree? (h : d.Linked) : ∀ {ts : List Tree} {xs : List NodeId},
    d.ShowsList ts xs → xs.filterMap d.tree? = ts
  | [], [], _ => rfl
  | t :: ts, x :: xs, hs => by
    rw [List.filterMap_cons_some (Shows.tree?_eq h hs.1), ShowsList.filterMap_tree? h hs.2]

end

/-- Every node shows a tree. -/
theorem Linked.exists_shows (h : d.Linked) (x : NodeId) (hx : d.contains x = true) :
    ∃ t, d.Shows t x := by
  induction x using h.down_induction with
  | step x ih =>
    have hlist : ∀ xs : List NodeId, (∀ c ∈ xs, c ∈ d.children x) → ∃ ts, d.ShowsList ts xs := by
      intro xs
      induction xs with
      | nil => exact fun _ => ⟨[], trivial⟩
      | cons c xs ihs =>
        intro hxs
        have hc := hxs c List.mem_cons_self
        obtain ⟨t, ht⟩ := ih c hc (h.contains_child hc)
        obtain ⟨ts, hts⟩ := ihs fun c' hc' => hxs c' (List.mem_cons_of_mem c hc')
        exact ⟨t :: ts, ht, hts⟩
    obtain ⟨ts, hts⟩ := hlist (d.children x) fun c hc => hc
    obtain ⟨c, hc⟩ := contains_iff_content?.1 hx
    cases c with
    | document => exact ⟨.document ts, hc, hts⟩
    | element name as => exact ⟨.element name as ts, hc, hts⟩
    | text s =>
      have hleaf : d.children x = [] := h.text (isText_iff.2 (by rw [kind?, hc]; rfl))
      exact ⟨.text s, hc, hleaf⟩

end Document

end MarkupTree
