import MarkupTree.Proofs.Document.Deleted

/-!
# Replacing a node

A replacement is an insertion next to the node and then the deletion of the node. It does not matter
on which side the new node is put, nor whether it is put there before the old one is taken out: the
place of the old node is told among its siblings without the new one.
-/

namespace MarkupTree

/-- An entry is taken out next to a new one. -/
theorem erase_beside {α : Type} [BEq α] [LawfulBEq α] {a b : α} {before after : List α} {k : Nat}
    (ha : a ∉ before) (hab : a ≠ b) (hk : k ≤ 1) :
    ((before ++ a :: after).take (before.length + k) ++
      b :: (before ++ a :: after).drop (before.length + k)).erase a = before ++ b :: after := by
  rw [List.take_length_add_append, List.drop_length_add_append, List.append_assoc,
    List.erase_append_right _ ha]
  obtain rfl | rfl : k = 0 ∨ k = 1 := by omega
  · simp [List.erase_cons_tail, hab.symm]
  · simp

namespace Document

variable {d e f : Document} {m n p x : NodeId}

/-- `m` has taken the place of `n`, which is reclaimed with the nodes below it, and all else is as
it was, but for the former place of `m`. -/
structure Replaced (d : Document) (n m : NodeId) (e : Document) : Prop where
  place : ∃ p before after, d.parent? n = some p ∧ d.others p m = before ++ n :: after ∧
    e.children p = before ++ m :: after ∧ e.parent? m = some p
  contains_iff : ∀ x, e.contains x = true ↔ d.contains x = true ∧ x ∉ n :: d.descendants n
  size : e.size + (n :: d.descendants n).length = d.size
  subtree : e.descendants m = d.descendants m ∧ ∀ x ∈ m :: d.descendants m,
    e.contains x = d.contains x ∧ e.content? x = d.content? x ∧ e.children x = d.children x ∧
      (x ≠ m → e.parent? x = d.parent? x)
  /-- A former parent of the new node loses it and nothing else. -/
  former : ∀ q, d.parent? m = some q → d.parent? n ≠ some q → e.children q = d.others q m
  other_children : ∀ x, x ∉ n :: d.descendants n → d.parent? n ≠ some x →
    d.parent? m ≠ some x → e.children x = d.children x
  other_parent? : ∀ x, x ∉ n :: d.descendants n → x ≠ m → e.parent? x = d.parent? x
  other_content? : ∀ x, x ∉ n :: d.descendants n → e.content? x = d.content? x

/-! ### The order of the steps -/

/-- A node next to the new one is taken out before or after the new one is put in. -/
theorem Linked.unlink_linkAt (h : d.Linked) (hi : d.Insertable p m) (hm : d.parent? m = none)
    (hp : d.parent? n = some p) {after : Nat} (hafter : after ≤ 1) :
    (d.linkAt p (d.offset n + after) m).unlink n = (d.unlink n).linkAt p (d.offset n) m := by
  have hnm : n ≠ m := fun he => by rw [he, hm] at hp; cases hp
  have hi' := hi.unlink n
  refine (((Relinked.unlink d n).trans (.linkAt ..)).symm.trans
    ((Relinked.linkAt d p _ m).trans (.unlink _ n))).eq_of_links ?_ ?_
  · rw [parent?_unlink, parent?_linkAt hi.child, parent?_linkAt hi'.child, parent?_unlink,
      Function.update_comm hnm]
  · rw [children_unlink (h.linkAt hi hm _).forest, children_linkAt_update hi.parent,
      children_linkAt_update hi'.parent]
    funext x
    by_cases hx : x = p
    · have hn : n ∉ d.preceding n := fun hmem =>
        h.not_mem_beside hp (List.mem_append_left _ hmem)
      rw [hx, Function.update_self, Function.update_self, h.children_unlink_self, h.others_eq hp,
        h.children_eq hp, ← h.length_preceding hp, erase_beside hn hnm hafter, List.take_left,
        List.drop_left]
    · rw [Function.update_of_ne hx, Function.update_of_ne hx, children_unlink h.forest]

theorem replace_eq_ok_of_ne (h : d.Linked) (hne : n ≠ m) (he : d.replace n m = .ok e) :
    ∃ p, d.parent? n = some p ∧ d.Insertable p m ∧ ¬ Reaches d.parent? m n ∧
      ∀ after ≤ 1, e =
        (((d.unlink m).linkAt p ((d.unlink m).offset n + after) m).unlink n).reclaim n := by
  obtain ⟨p, hp, hi, ⟨hmn, -⟩ | ⟨-, hapart, heq⟩⟩ := (replace_eq_ok h).1 he
  · exact absurd hmn.symm hne
  · refine ⟨p, hp, hi, hapart, fun after hafter => ?_⟩
    rw [heq, (h.unlink m).unlink_linkAt (hi.unlink m) (parent?_unlink_self d m)
      ((parent?_unlink_of_ne hne).trans hp) hafter]

/-- The node is deleted once the new one stands next to it. -/
theorem insertBeside_delete (h : d.WellFormed) (hne : n ≠ m) (he : d.replace n m = .ok e)
    {after : Nat} (hafter : after ≤ 1) (use : ParentUse) :
    ∃ f, d.insertBeside n m after use = .ok f ∧ f.delete n = .ok e := by
  obtain ⟨p, hp, hi, -, heq⟩ := replace_eq_ok_of_ne h.linked hne he
  refine ⟨_, (insertBeside_eq_ok h.linked).2 ⟨p, hp, hi, rfl⟩, delete_eq_ok.2 ⟨?_, ?_, ?_⟩⟩
  · rw [if_neg hne.symm, contains_linkAt, contains_unlink]
    exact contains_of_parent? hp
  · exact h.ne_root_of_parent? hp
  · rw [if_neg hne.symm]
    exact heq after hafter

/-! ### What is replaced -/

section
variable (h : d.Linked) (hp : d.parent? n = some p) (hi : d.Insertable p m)
variable (hapart : ¬ Reaches d.parent? m n)
include h hp hi hapart

/-- Nothing lies below the old node and below the new one. -/
theorem not_mem_below_of_apart (hx : x ∈ m :: d.descendants m) : x ∉ n :: d.descendants n := by
  intro hx'
  rcases (h.mem_cons_descendants.1 hx).total (h.mem_cons_descendants.1 hx') with hmn | hnm
  · exact hapart hmn
  · rcases hnm.cases with rfl | ⟨q, hq, hqm⟩
    · exact hapart .refl
    · rw [hp, Option.some.injEq] at hq
      exact hi.apart (hq ▸ hqm)

theorem Placed.replaced (hf : f.Linked) (he : e.Linked) {before after : List NodeId}
    (hothers : d.others p m = before ++ n :: after)
    (hplaced : Placed d p m (before ++ m :: n :: after) f) (hdeleted : Deleted f n e) :
    Replaced d n m e := by
  have hne : n ≠ m := fun he => hapart (he ▸ .refl)
  have hgone : ∀ {x}, x ∈ m :: d.descendants m → x ∉ n :: d.descendants n :=
    not_mem_below_of_apart h hp hi hapart
  have hpn : p ∉ n :: d.descendants n := fun hmem =>
    h.forest.grounded.not_reaches_of_passes (.single hp) (h.mem_cons_descendants.1 hmem)
  have hpm : ∀ {x}, x ∈ m :: d.descendants m → x ≠ p := fun hx he =>
    hi.apart (h.mem_cons_descendants.1 (he ▸ hx))
  have hformer : ∀ {x}, x ∈ n :: d.descendants n → d.parent? m ≠ some x := fun hx hm =>
    hapart (.step hm (h.mem_cons_descendants.1 hx))
  have hbelow : f.descendants n = d.descendants n := h.descendants_congr hf fun x hx =>
    hplaced.other_children x (fun hxp => hpn (hxp ▸ hx)) (hformer hx)
  have hfn : f.parent? n = some p := (hplaced.other_parent? n hne).trans hp
  have hfp : ∀ {x}, x ≠ p → f.parent? n ≠ some x := fun hx hfx =>
    hx (Option.some.inj (hfn.symm.trans hfx)).symm
  obtain ⟨hcontains, hsize, hloses, hchildren, hparent, hcontent, -, -⟩ := hdeleted
  rw [hbelow] at hcontains hsize hchildren hparent hcontent
  have hsubtree : ∀ x ∈ m :: d.descendants m, e.children x = d.children x := fun x hx => by
    rw [hchildren x (hgone hx) (hfp (hpm hx)), hplaced.subtree x hx]
  have hself : m ∉ n :: d.descendants n := hgone List.mem_cons_self
  refine ⟨⟨p, before, after, hp, hothers, ?_, ?_⟩, fun x => ?_, ?_,
    ⟨h.descendants_congr he hsubtree, fun x hx => ⟨?_, ?_, hsubtree x hx, fun hxm => ?_⟩⟩,
    fun q hq hqn => ?_, fun x hx hxn hxm => ?_, fun x hx hxm => ?_, fun x hx => ?_⟩
  · have hsplit : f.children p = (before ++ [m]) ++ n :: after := by
      rw [hplaced.children_eq, List.append_assoc]
      rfl
    obtain ⟨-, hpre, hfol⟩ := hf.children_eq_iff.1 hsplit
    rw [hloses p hfn, hf.others_eq hfn, hpre, hfol, List.append_assoc]
    rfl
  · rw [hparent m hself, hplaced.parent?]
  · rw [hcontains, hplaced.relinked.contains]
  · rw [hsize]
    exact hplaced.relinked.live
  · rw [Bool.eq_iff_iff, hcontains, hplaced.relinked.contains]
    exact and_iff_left (hgone hx)
  · rw [hcontent x (hgone hx), hplaced.relinked.content?]
  · rw [hparent x (hgone hx), hplaced.other_parent? x hxm]
  · have hqp : q ≠ p := fun he => hqn (he ▸ hp)
    rw [hchildren q (fun hmem => hformer hmem hq) (hfp hqp), hplaced.former q hqp hq]
  · have hxp : x ≠ p := fun he => hxn (he ▸ hp)
    rw [hchildren x hx (hfp hxp), hplaced.other_children x hxp hxm]
  · rw [hparent x hx, hplaced.other_parent? x hxm]
  · rw [hcontent x hx, hplaced.relinked.content?]

end

theorem replace_replaced (h : d.WellFormed) (hne : n ≠ m) (he : d.replace n m = .ok e) :
    Replaced d n m e := by
  obtain ⟨f, hf, hdelete⟩ := insertBeside_delete h hne he (Nat.zero_le 1) .insertBefore
  have hwf := Command.wellFormed_apply h (c := .insertBefore n m) hf
  have hwe := Command.wellFormed_apply h (c := .replace n m) he
  obtain ⟨p, hp, hi, hapart, -⟩ := replace_eq_ok_of_ne h.linked hne he
  obtain ⟨hmn, -⟩ | ⟨-, q, before, after, hq, hothers, hplaced⟩ := insertBefore_placed h hf
  · exact absurd hmn.symm hne
  · obtain rfl : p = q := Option.some.inj (hp.symm.trans hq)
    exact hplaced.replaced h.linked hp hi hapart hwf.linked hwe.linked hothers
      (delete_deleted hwf hdelete)

/-- A replacement of a node by another one leaves the document that an insertion of the new node on
either side of the old one leaves once the old one has been deleted. -/
theorem replace_eq_insert_delete (h : Reachable d) (hne : n ≠ m) (he : d.replace n m = .ok e) :
    (do (← d.insertBefore n m).delete n) = .ok e ∧
      (do (← d.insertAfter n m).delete n) = .ok e ∧ Replaced d n m e := by
  have hw := wellFormed_of_reachable h
  obtain ⟨f, hf, hf'⟩ := insertBeside_delete hw hne he (Nat.zero_le 1) .insertBefore
  obtain ⟨g, hg, hg'⟩ := insertBeside_delete hw hne he (Nat.le_refl 1) .insertAfter
  exact ⟨bind_eq_ok.2 ⟨f, hf, hf'⟩, bind_eq_ok.2 ⟨g, hg, hg'⟩, replace_replaced hw hne he⟩

/-- The last of three children takes the place of the first, which has a child of its own. -/
theorem replace_eq_insert_delete_later : ∃ d e : Document,
    d.children .root = [⟨1, 0⟩, ⟨3, 0⟩, ⟨4, 0⟩] ∧ d.children ⟨1, 0⟩ = [⟨2, 0⟩] ∧
      (⟨1, 0⟩ : NodeId) ≠ ⟨4, 0⟩ ∧ d.replace ⟨1, 0⟩ ⟨4, 0⟩ = .ok e ∧
        (do (← d.insertBefore ⟨1, 0⟩ ⟨4, 0⟩).delete ⟨1, 0⟩) = .ok e ∧
          (do (← d.insertAfter ⟨1, 0⟩ ⟨4, 0⟩).delete ⟨1, 0⟩) = .ok e ∧
            Replaced d ⟨1, 0⟩ ⟨4, 0⟩ e := by
  obtain ⟨d, hd, htop, ha, e, he⟩ : ∃ d : Document, Reachable d ∧
      d.children .root = [⟨1, 0⟩, ⟨3, 0⟩, ⟨4, 0⟩] ∧ d.children ⟨1, 0⟩ = [⟨2, 0⟩] ∧
        ∃ e, d.replace ⟨1, 0⟩ ⟨4, 0⟩ = .ok e := by
    refine ⟨_, @Reachable.ofSignals .default [.startTag "a" [], .text "s", .endTag "a", .text "t",
      .text "u"] _ rfl, ?_, ?_, _, rfl⟩
    · decide +kernel
    · decide +kernel
  have hne : (⟨1, 0⟩ : NodeId) ≠ ⟨4, 0⟩ := by decide
  exact ⟨d, e, htop, ha, hne, he, replace_eq_insert_delete hd hne he⟩

end Document

end MarkupTree
