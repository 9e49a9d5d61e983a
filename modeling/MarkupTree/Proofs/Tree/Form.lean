import MarkupTree.Proofs.Signal.Canonical

/-!
# What is compared of a tree

Equality compares trees by a normal form. Of the branches that are no texts the form has all in
their order; nothing is left of branches that are empty texts.
-/

namespace MarkupTree

namespace Tree

variable {ts us : List Tree}

def isNode : Tree → Bool
  | .document _ => true
  | .element _ _ _ => true
  | .text _ => false

/-- The tree that is compared: normal, and its attributes sorted. -/
def form (t : Tree) : Tree := (t.normal id).sorted

theorem key_eq (f : String → String) (ts : List Tree) :
    key f ts = (dropEmpty (normalList f ts)).map sorted := by
  have hmap : ∀ us : List Tree, sortedList us = us.map sorted := by
    intro us
    induction us with
    | nil => rfl
    | cons u us ih => rw [sortedList, ih, List.map_cons]
  rw [key, hmap, pruneList_eq, normalList_eq]

theorem filter_isNode_dropEmpty (ts : List Tree) :
    (dropEmpty ts).filter isNode = ts.filter isNode := by
  rw [dropEmpty, List.filter_filter]
  refine List.filter_congr fun t _ => ?_
  cases t <;> rfl

theorem filter_isNode_joinText (s : String) (ts : List Tree) :
    (joinText s ts).filter isNode = ts.filter isNode := by
  cases ts with
  | nil => rfl
  | cons t ts => cases t <;> rfl

theorem filter_isNode_normalList (ts : List Tree) :
    (normalList id ts).filter isNode = (ts.filter isNode).map (normal id) := by
  induction ts with
  | nil => rfl
  | cons t ts ih =>
    cases t with
    | text s =>
      show (joinText s (normalList id ts)).filter isNode = (ts.filter isNode).map (normal id)
      rw [filter_isNode_joinText, ih]
    | element name as cs => exact congrArg (_ :: ·) ih
    | document cs => exact congrArg (_ :: ·) ih

/-- The branches that are compared are, but for texts, those that are there. -/
theorem filter_isNode_key (ts : List Tree) :
    (key id ts).filter isNode = (ts.filter isNode).map form := by
  have hsorted : isNode ∘ sorted = isNode := by
    funext t
    cases t <;> rfl
  rw [key_eq, List.filter_map, hsorted, filter_isNode_dropEmpty, filter_isNode_normalList,
    List.map_map]
  rfl

theorem dropEmpty_joinText_eq_nil (s : String) (ts : List Tree) :
    dropEmpty (joinText s ts) = [] ↔ s = "" ∧ dropEmpty ts = [] := by
  cases ts with
  | nil => by_cases hs : s = "" <;> simp [joinText, dropEmpty, hs]
  | cons t ts =>
    cases t with
    | text run =>
      by_cases hs : s = "" <;> by_cases hr : run = "" <;>
        simp [joinText, dropEmpty, hs, hr, String.append_eq_empty_iff]
    | element | document => simp [joinText, dropEmpty]

/-- Nothing is left to compare just if there are empty texts only. -/
theorem key_eq_nil_iff (ts : List Tree) : key id ts = [] ↔ ts.all isEmptyText = true := by
  rw [key_eq, List.map_eq_nil_iff]
  induction ts with
  | nil => exact iff_of_true rfl rfl
  | cons t ts ih =>
    rw [List.all_cons, Bool.and_eq_true, ← ih]
    cases t with
    | text s =>
      show dropEmpty (joinText s (normalList id ts)) = [] ↔ _
      rw [dropEmpty_joinText_eq_nil, isEmptyText, String.isEmpty_iff]
    | element name as cs =>
      rw [normalList_element]
      simp [dropEmpty, isEmptyText]
    | document cs =>
      rw [normalList_document]
      simp [dropEmpty, isEmptyText]

theorem InnerList.filter_isNode {ts : List Tree} (h : InnerList ts) :
    InnerList (ts.filter isNode) := by
  induction ts with
  | nil => exact trivial
  | cons t ts ih =>
    cases t with
    | text s =>
      rw [List.filter_cons_of_neg Bool.false_ne_true]
      exact ih h.2
    | element name as cs => exact ⟨h.1, ih h.2⟩
    | document cs => exact h.1.elim

def children : Tree → List Tree
  | .document ts => ts
  | .element _ _ ts => ts
  | .text _ => []

theorem innerList_children {t : Tree} (h : InnerList t.branches) : InnerList t.children := by
  cases t with
  | document ts => exact h
  | element name as ts => exact h.1.2
  | text s => exact trivial

theorem key_children {t u : Tree} (hkind : t.kind = u.kind)
    (h : key id t.branches = key id u.branches) : key id t.children = key id u.children := by
  match t, u with
  | .document _, .document _ => exact h
  | .element _ _ _, .element _ _ _ => exact (element.inj (List.cons.inj h).1).2.2
  | .text _, .text _ => rfl
  | .document _, .element _ _ _ | .document _, .text _ | .element _ _ _, .document _
  | .element _ _ _, .text _ | .text _, .document _ | .text _, .element _ _ _ => cases hkind

end Tree

end MarkupTree
