import MarkupTree.Proofs.Document.Siblings
import MarkupTree.Proofs.Reachable

/-!
# Where insertions put a node

Every insertion takes a node out of its place and then puts it among the other children of its new
parent. The place is told among these, so it does not matter whether the node was one of the
children before, nor on which side of its new place.
-/

namespace MarkupTree

theorem insertIdx_length_append {α : Type} (before after : List α) (a : α) :
    (before ++ after).insertIdx before.length a = before ++ a :: after := by
  induction before with
  | nil => rfl
  | cons b before ih => rw [List.cons_append, List.length_cons, List.insertIdx_succ_cons, ih]; rfl

namespace Document

variable {d e : Document} {p q n x : NodeId} {children : List NodeId}

/-- The children of a node without `n`. -/
def others (d : Document) (p n : NodeId) : List NodeId := (d.children p).filter (· != n)

/-- `n` stands below `p`, which now has the given children, and all else is as it was. -/
structure Placed (d : Document) (p n : NodeId) (children : List NodeId) (e : Document) :
    Prop where
  children_eq : e.children p = children
  parent? : e.parent? n = some p
  /-- A former parent loses `n` and nothing else. -/
  former : ∀ q, q ≠ p → d.parent? n = some q → e.children q = d.others q n
  other_children : ∀ q, q ≠ p → d.parent? n ≠ some q → e.children q = d.children q
  other_parent? : ∀ x, x ≠ n → e.parent? x = d.parent? x
  subtree : ∀ x ∈ n :: d.descendants n, e.children x = d.children x
  descendants : e.descendants n = d.descendants n
  relinked : Relinked d e

namespace Linked

theorem children_unlink_self (h : d.Linked) (p n : NodeId) :
    (d.unlink n).children p = d.others p n := by
  rw [children_unlink h.forest, others]
  exact (h.forest.nodup p).erase_eq_filter n

theorem others_of_not (h : d.Linked) (hp : d.parent? n ≠ some p) :
    d.others p n = d.children p := by
  rw [others, List.filter_eq_self]
  rintro x hx
  rw [bne_iff_ne]
  rintro rfl
  exact hp (h.mem_children.1 hx)

theorem others_eq (h : d.Linked) (hp : d.parent? n = some p) :
    d.others p n = d.preceding n ++ d.following n := by
  rw [others, h.children_eq hp, List.filter_append, List.filter_cons_of_neg (by simp),
    ← List.filter_append, List.filter_eq_self]
  intro x hx
  rw [bne_iff_ne]
  rintro rfl
  exact h.not_mem_beside hp hx

/-- A node that is taken out and put in again at a place among the other children. -/
theorem placed (h : d.Linked) (hi : d.Insertable p n) {before after : List NodeId}
    (hothers : d.others p n = before ++ after) :
    Placed d p n (before ++ n :: after) ((d.unlink n).linkAt p before.length n) := by
  have hi' := hi.unlink n
  have hlinked := (h.unlink n).linkAt hi' (parent?_unlink_self d n) before.length
  have hup : ((d.unlink n).linkAt p before.length n).parent? =
      Function.update d.parent? n (some p) := by
    rw [parent?_linkAt hi'.child, parent?_unlink, Function.update_idem]
  have hdown : ∀ q, q ≠ p →
      ((d.unlink n).linkAt p before.length n).children q = d.others q n := by
    intro q hq
    rw [children_linkAt_update hi'.parent, Function.update_of_ne hq, h.children_unlink_self]
  have hother : ∀ q, q ≠ p → d.parent? n ≠ some q →
      ((d.unlink n).linkAt p before.length n).children q = d.children q :=
    fun q hq hn => (hdown q hq).trans (h.others_of_not hn)
  have hsubtree : ∀ x ∈ n :: d.descendants n,
      ((d.unlink n).linkAt p before.length n).children x = d.children x := by
    intro x hx
    have hx := h.mem_cons_descendants.1 hx
    refine hother x (fun hxp => hi.apart (hxp ▸ hx)) fun hn => ?_
    exact h.forest.grounded.not_reaches_of_passes (.single hn) hx
  refine ⟨?_, ?_, fun q hq _ => hdown q hq, hother, fun x hx => ?_, hsubtree,
    h.descendants_congr hlinked hsubtree, (Relinked.unlink d n).trans (Relinked.linkAt ..)⟩
  · rw [children_linkAt hi'.parent, h.children_unlink_self, hothers, List.take_left,
      List.drop_left]
  · rw [hup, Function.update_self]
  · rw [hup, Function.update_of_ne hx]

/-- A number too large for the other children stands for the last place. -/
theorem exists_placed_at (h : d.Linked) (hi : d.Insertable p n) (i : Nat) :
    ∃ before after, d.others p n = before ++ after ∧
      before.length = min i (d.others p n).length ∧
      Placed d p n (before ++ n :: after) ((d.unlink n).linkAt p i n) := by
  have hsplit := (List.take_append_drop i (d.others p n)).symm
  refine ⟨_, _, hsplit, List.length_take, ?_⟩
  have hlink : (d.unlink n).linkAt p i n =
      (d.unlink n).linkAt p ((d.others p n).take i).length n := by
    rw [Document.linkAt, Document.linkAt, h.children_unlink_self, List.length_take]
    by_cases hlt : i ≤ (d.others p n).length
    · rw [Nat.min_eq_left hlt]
    · rw [Nat.min_eq_right (by omega), List.take_length, List.drop_length,
        List.take_of_length_le (by omega), List.drop_of_length_le (by omega)]
  rw [hlink]
  exact h.placed hi hsplit

theorem length_preceding (h : d.Linked) (hp : d.parent? x = some p) :
    (d.preceding x).length = d.offset x := by
  rw [preceding, offset, position?_eq h.forest, hp]
  exact List.length_take.trans (Nat.min_eq_left List.idxOf_le_length)

/-- A sibling of the place where `n` goes is found among the children without `n`. -/
theorem exists_others_eq (h : d.Linked) (hx : d.parent? x = some p) (hne : n ≠ x) :
    ∃ before after, d.others p n = before ++ x :: after ∧
      (d.unlink n).offset x = before.length := by
  have hx' : (d.unlink n).parent? x = some p := by rw [parent?_unlink_of_ne hne.symm, hx]
  have hu := h.unlink n
  refine ⟨(d.unlink n).preceding x, (d.unlink n).following x, ?_, (hu.length_preceding hx').symm⟩
  rw [← h.children_unlink_self, hu.children_eq hx']

end Linked

theorem Placed.indexOf_eq (h : e.Linked) {before after : List NodeId}
    (hp : Placed d p n (before ++ n :: after) e) : e.indexOf n = .ok (before.length + 1) := by
  obtain ⟨node, hn⟩ := contains_iff.1 (contains_of_parent? hp.parent?)
  rw [indexOf, require_eq_ok.2 hn]
  show Except.ok (e.place n) = _
  rw [place, (h.children_eq_iff.1 hp.children_eq).2.1]

/-! ### The edits -/

section

variable (h : d.WellFormed)
include h

theorem append_placed (he : d.append p n = .ok e) : Placed d p n (d.others p n ++ [n]) e := by
  obtain ⟨hi, rfl⟩ := (append_eq_ok h.linked).1 he
  rw [linkLast_eq, h.linked.children_unlink_self]
  exact h.linked.placed hi (List.append_nil _).symm

theorem prepend_placed (he : d.prepend p n = .ok e) : Placed d p n (n :: d.others p n) e := by
  obtain ⟨hi, rfl⟩ := (prepend_eq_ok h.linked).1 he
  have hothers : d.others p n = [] ++ d.others p n := rfl
  exact h.linked.placed hi hothers

/-- Any number stands for the place that is nearest to it. -/
theorem insertAt_placed {k : Int} (he : d.insertAt k p n = .ok e) :
    Placed d p n
        ((d.others p n).insertIdx (max 0 (min (k - 1) (d.others p n).length)).toNat n) e ∧
      e.indexOf n = .ok (max 1 (min k ((d.others p n).length + 1))).toNat := by
  have hlinked := (Command.wellFormed_apply h (c := .insertAt k p n) he).linked
  obtain ⟨hi, rfl⟩ := (insertAt_eq_ok h.linked).1 he
  obtain ⟨before, after, hothers, hlen, hplaced⟩ := h.linked.exists_placed_at hi (k - 1).toNat
  have hindex := hplaced.indexOf_eq hlinked
  have hclamp : (max 0 (min (k - 1) (d.others p n).length)).toNat = before.length := by omega
  have hnumber : (max 1 (min k ((d.others p n).length + 1))).toNat = before.length + 1 := by omega
  rw [hnumber, hclamp, hothers, insertIdx_length_append]
  exact ⟨hplaced, hindex⟩

theorem insertBeside_cases {after : Nat} {use : ParentUse}
    (he : d.insertBeside x n after use = .ok e) : n = x ∧ e = d ∨ n ≠ x ∧ ∃ p s t,
      d.parent? x = some p ∧ d.Insertable p n ∧ d.others p n = s ++ x :: t ∧
        e = (d.unlink n).linkAt p (s.length + after) n := by
  obtain ⟨p, hp, hi, rfl⟩ := (insertBeside_eq_ok h.linked).1 he
  by_cases hne : n = x
  · exact .inl ⟨hne, if_pos hne⟩
  · obtain ⟨s, t, hothers, hoffset⟩ := h.linked.exists_others_eq hp hne
    exact .inr ⟨hne, p, s, t, hp, hi, hothers, by rw [if_neg hne, hoffset]⟩

theorem insertBefore_placed (he : d.insertBefore x n = .ok e) : n = x ∧ e = d ∨ n ≠ x ∧
    ∃ p s t, d.parent? x = some p ∧ d.others p n = s ++ x :: t ∧
      Placed d p n (s ++ n :: x :: t) e := by
  refine (insertBeside_cases h he).imp_right fun ⟨hne, p, s, t, hp, hi, hothers, hlink⟩ => ?_
  exact ⟨hne, p, s, t, hp, hothers, hlink ▸ h.linked.placed hi hothers⟩

theorem insertAfter_placed (he : d.insertAfter x n = .ok e) : n = x ∧ e = d ∨ n ≠ x ∧
    ∃ p s t, d.parent? x = some p ∧ d.others p n = s ++ x :: t ∧
      Placed d p n (s ++ x :: n :: t) e := by
  refine (insertBeside_cases h he).imp_right fun ⟨hne, p, s, t, hp, hi, hothers, hlink⟩ => ?_
  have hsplit : d.others p n = (s ++ [x]) ++ t := by rw [hothers, List.append_assoc]; rfl
  have hplaced := h.linked.placed hi hsplit
  rw [List.length_append, List.append_assoc] at hplaced
  exact ⟨hne, p, s, t, hp, hothers, hlink ▸ hplaced⟩

/-- A node that is taken out can be put back where it was. -/
theorem detach_insertAt (hp : d.parent? n = some p) : ∃ k, d.indexOf n = .ok k ∧
    (do (← d.detach n).insertAt k p n) = .ok d := by
  have hl := h.linked
  have hlive := contains_of_parent? hp
  obtain ⟨node, hn⟩ := contains_iff.1 hlive
  have hi : d.Insertable p n := ⟨hl.contains_parent hp, hlive, hl.not_isText_parent hp,
    hl.not_isDocument_child hp, hl.forest.grounded.not_reaches_of_passes (.single hp)⟩
  refine ⟨d.place n, by rw [indexOf, require_eq_ok.2 hn]; rfl, ?_⟩
  rw [detach_eq_ok.2 ⟨hlive, rfl⟩]
  refine (insertAt_eq_ok (hl.unlink n)).2 ⟨hi.unlink n, ?_⟩
  have hplace : ((d.place n : Int) - 1).toNat = (d.preceding n).length := by
    rw [place]; omega
  -- Taking the node out a second time changes nothing.
  have hagain : (d.unlink n).others p n = d.others p n := by
    rw [others, (hl.children_unlink_self), others, List.filter_filter]
    simp
  have hplaced := (hl.unlink n).placed (hi.unlink n) (hagain.trans (hl.others_eq hp))
  rw [hplace]
  refine (Relinked.eq_of_links ?_ ?_ ?_).symm
  · exact (Relinked.unlink d n).trans hplaced.relinked
  · funext y
    by_cases hy : y = n
    · rw [hy, hplaced.parent?, hp]
    · rw [hplaced.other_parent? y hy, parent?_unlink_of_ne hy]
  · funext y
    by_cases hy : y = p
    · rw [hy, hplaced.children_eq, hl.children_eq hp]
    · rw [hplaced.other_children y hy (by rw [parent?_unlink_self]; nofun),
        hl.children_unlink_self, hl.others_of_not]
      rw [hp, ne_eq, Option.some.injEq]
      exact Ne.symm hy

end

/-- Where every insertion that succeeds puts a node: among the other children of the parent. Nothing
else changes, but that the node is gone from a former parent. Put back at its own number a node that
was taken out leaves the document as it was before. -/
theorem insertions_place (h : Reachable d) :
    (∀ p n e, d.append p n = .ok e → Placed d p n (d.others p n ++ [n]) e) ∧
    (∀ p n e, d.prepend p n = .ok e → Placed d p n (n :: d.others p n) e) ∧
    (∀ (k : Int) p n e, d.insertAt k p n = .ok e →
      Placed d p n
          ((d.others p n).insertIdx (max 0 (min (k - 1) (d.others p n).length)).toNat n) e ∧
        e.indexOf n = .ok (max 1 (min k ((d.others p n).length + 1))).toNat) ∧
    (∀ x n e, d.insertBefore x n = .ok e → n = x ∧ e = d ∨ n ≠ x ∧ ∃ p s t,
      d.parent? x = some p ∧ d.others p n = s ++ x :: t ∧ Placed d p n (s ++ n :: x :: t) e) ∧
    (∀ x n e, d.insertAfter x n = .ok e → n = x ∧ e = d ∨ n ≠ x ∧ ∃ p s t,
      d.parent? x = some p ∧ d.others p n = s ++ x :: t ∧ Placed d p n (s ++ x :: n :: t) e) ∧
    ∀ p n, d.parent? n = some p → ∃ k, d.indexOf n = .ok k ∧
      (do (← d.detach n).insertAt k p n) = .ok d :=
  have hw := wellFormed_of_reachable h
  ⟨fun _ _ _ => append_placed hw, fun _ _ _ => prepend_placed hw,
    fun _ _ _ _ => insertAt_placed hw, fun _ _ _ => insertBefore_placed hw,
    fun _ _ _ => insertAfter_placed hw, fun _ _ => detach_insertAt hw⟩

/-- The first of three children becomes the second. -/
theorem insertions_place_first_second : ∃ d e : Document,
    d.children .root = [⟨1, 0⟩, ⟨2, 0⟩, ⟨3, 0⟩] ∧ d.insertAt 2 .root ⟨1, 0⟩ = .ok e ∧
      Placed d .root ⟨1, 0⟩ [⟨2, 0⟩, ⟨1, 0⟩, ⟨3, 0⟩] e ∧ e.indexOf ⟨1, 0⟩ = .ok 2 ∧
      ∃ k, d.indexOf ⟨1, 0⟩ = .ok k ∧ (do (← d.detach ⟨1, 0⟩).insertAt k .root ⟨1, 0⟩) = .ok d := by
  obtain ⟨d, hd, hchildren, hp, e, he⟩ : ∃ d : Document, Reachable d ∧
      d.children .root = [⟨1, 0⟩, ⟨2, 0⟩, ⟨3, 0⟩] ∧ d.parent? ⟨1, 0⟩ = some .root ∧
        ∃ e, d.insertAt 2 .root ⟨1, 0⟩ = .ok e := by
    refine ⟨_, @Reachable.ofSignals .default [.text "a", .text "b", .text "c"] _ rfl, ?_, ?_, ?_⟩
    · decide +kernel
    · decide +kernel
    · exact ⟨_, rfl⟩
  obtain ⟨-, -, hinsertAt, -, -, hback⟩ := insertions_place hd
  obtain ⟨hplaced, hindex⟩ := hinsertAt 2 .root ⟨1, 0⟩ e he
  have hothers : d.others .root ⟨1, 0⟩ = [⟨2, 0⟩, ⟨3, 0⟩] := by
    rw [others, hchildren]
    rfl
  rw [hothers] at hplaced hindex
  exact ⟨d, e, hchildren, he, hplaced, hindex, hback .root ⟨1, 0⟩ hp⟩

end Document

end MarkupTree
