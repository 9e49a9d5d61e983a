import MarkupTree.Proofs.Document.Insertions
import MarkupTree.Proofs.Document.Thinned

/-!
# Wrapping and unwrapping

A wrapper is first set aside: it leaves its place and its children. Then it takes the place of the
node, told among the children that are left there, and the node becomes its only child. Unwrapping
puts the children of a node at the place of the node. So a wrapper that is taken off again leaves
the document in which it was only set aside.
-/

namespace MarkupTree

theorem replace_append_cons {α : Type} [BEq α] [LawfulBEq α] {a b : α} {before after : List α}
    (h : a ∉ before) : (before ++ a :: after).replace a b = before ++ b :: after := by
  rw [List.replace_append_right h, List.replace_cons_self]

/-- An entry that is taken out and another one put at its place. -/
theorem erase_take_drop_idxOf {α : Type} [BEq α] [LawfulBEq α] {l : List α} {a : α} (h : a ∈ l)
    (b : α) : (l.erase a).take (l.idxOf a) ++ b :: (l.erase a).drop (l.idxOf a) =
      l.replace a b := by
  obtain ⟨before, after, rfl, hbefore⟩ := List.eq_append_cons_of_mem h
  rw [replace_append_cons hbefore, List.erase_append_right _ hbefore, List.erase_cons_head,
    List.idxOf_append_of_notMem hbefore, List.idxOf_cons_self, Nat.add_zero, List.take_left,
    List.drop_left]

namespace Document

variable {d e : Document} {n w p x : NodeId}

/-- `w` has taken the place of `n` and has `n` as its only child, and all else is as it was, but
for the former place and the former children of `w`. -/
structure Wrapped (d : Document) (n w : NodeId) (e : Document) : Prop where
  children_eq : e.children w = [n]
  parent? : e.parent? n = some w
  wrapper : e.parent? w = d.parent? n
  place : ∀ p, d.parent? n = some p → ∃ before after,
    d.others p w = before ++ n :: after ∧ e.children p = before ++ w :: after
  /-- A former child of the wrapper has no parent, and all below it is as it was. -/
  dropped : ∀ c ∈ d.children w, e.parent? c = none ∧ e.descendants c = d.descendants c ∧
    ∀ x ∈ c :: d.descendants c, e.children x = d.children x
  /-- A former parent of the wrapper loses it and nothing else. -/
  former : ∀ q, d.parent? w = some q → d.parent? n ≠ some q → e.children q = d.others q w
  other_children : ∀ x, x ≠ w → d.parent? n ≠ some x → d.parent? w ≠ some x →
    e.children x = d.children x
  other_parent? : ∀ x, x ≠ n → x ≠ w → d.parent? x ≠ some w → e.parent? x = d.parent? x
  relinked : Relinked d e

/-- The former children of `n` stand at the place of `n`, which is alive without place and children,
and all else is as it was. -/
structure Unwrapped (d : Document) (n : NodeId) (e : Document) : Prop where
  contains : e.contains n = true
  parent? : e.parent? n = none
  children_eq : e.children n = []
  place : ∃ p before after, d.parent? n = some p ∧ d.children p = before ++ n :: after ∧
    e.children p = before ++ d.children n ++ after ∧ ∀ c ∈ d.children n, e.parent? c = some p
  other_children : ∀ x, x ≠ n → d.parent? n ≠ some x → e.children x = d.children x
  other_parent? : ∀ x, x ≠ n → d.parent? x ≠ some n → e.parent? x = d.parent? x
  relinked : Relinked d e

/-! ### Setting a node aside -/

/-- A node without its children and without its place. -/
def setAside (d : Document) (x : NodeId) : Document := (d.orphan x).unlink x

theorem relinked_setAside (d : Document) (x : NodeId) : Relinked d (d.setAside x) :=
  (Relinked.orphan d x).trans (.unlink _ x)

theorem clear_detach (hx : d.contains x = true) :
    (do (← d.clear x).detach x) = .ok (d.setAside x) := by
  rw [clear_eq_ok.2 ⟨hx, rfl⟩]
  exact detach_eq_ok.2 ⟨by rwa [(Relinked.orphan d x).contains], rfl⟩

namespace Linked

section
variable (h : d.Linked)
include h

theorem setAside (w : NodeId) : (d.setAside w).Linked := (h.orphan w).unlink w

theorem parent?_setAside (w x : NodeId) : (d.setAside w).parent? x =
    if x = w ∨ d.parent? x = some w then none else d.parent? x := by
  rw [Document.setAside, parent?_unlink, parent?_orphan fun _ => h.mem_children]
  by_cases hx : x = w
  · simp [hx]
  · simp [hx]

theorem parent?_setAside_of_ne (hx : x ≠ w) (hw : d.parent? x ≠ some w) :
    (d.setAside w).parent? x = d.parent? x := by
  rw [h.parent?_setAside, if_neg (not_or.2 ⟨hx, hw⟩)]

theorem children_setAside_self (w : NodeId) : (d.setAside w).children w = [] := by
  rw [Document.setAside, (h.orphan w).children_unlink_self, others, children_orphan,
    Function.update_self, List.filter_nil]

theorem children_setAside_of_ne (hx : x ≠ w) : (d.setAside w).children x = d.others x w := by
  rw [Document.setAside, (h.orphan w).children_unlink_self, others, children_orphan,
    Function.update_of_ne hx, others]

/-- A node that stands alone is set aside already. -/
theorem setAside_eq (hup : d.parent? w = none) (hdown : d.children w = []) :
    d.setAside w = d := by
  refine (relinked_setAside d w).eq_of_links ?_ ?_
  · funext x
    rw [h.parent?_setAside]
    by_cases hx : x = w
    · rw [if_pos (.inl hx), hx, hup]
    · refine if_neg (not_or.2 ⟨hx, fun hxw => ?_⟩)
      rw [← h.mem_children, hdown] at hxw
      cases hxw
  · funext x
    by_cases hx : x = w
    · rw [hx, h.children_setAside_self, hdown]
    · rw [h.children_setAside_of_ne hx, h.others_of_not (by simp [hup])]

/-! ### Wrapping -/

/-- What enclosing a node does to the links, for a wrapper that stands alone. -/
theorem enclose_links (hn : d.contains n = true) (hw : d.contains w = true) (hne : n ≠ w)
    (hup : d.parent? w = none) (hdown : d.children w = []) :
    (d.enclose n w).parent? =
        Function.update (Function.update d.parent? w (d.parent? n)) n (some w) ∧
      (d.enclose n w).children =
        Function.update (fun x => (d.children x).replace n w) w [n] := by
  have hkeep : ∀ x, d.parent? n ≠ some x → (d.children x).replace n w = d.children x :=
    fun x hx => List.replace_of_not_mem fun hmem => hx (h.mem_children.1 hmem)
  rw [enclose, position?_eq h.forest]
  cases hp : d.parent? n with
  | none =>
    simp only [Option.map_none]
    rw [parent?_linkAt hn, children_linkAt_update hw, hdown]
    refine ⟨?_, ?_⟩
    · rw [← hup, Function.update_eq_self]
    · congr 1
      funext x
      exact (hkeep x (by simp [hp])).symm
  | some p =>
    simp only [Option.map_some]
    have hpw : p ≠ w := fun hpw => by
      rw [← h.mem_children, hpw, hdown] at hp
      cases hp
    have hp' : (d.unlink n).contains p = true := by
      rw [contains_unlink]; exact h.contains_parent hp
    have hw' : (d.unlink n).contains w = true := by rwa [contains_unlink]
    rw [parent?_linkAt (by rwa [contains_linkAt, contains_unlink]), parent?_linkAt hw',
      parent?_unlink, children_linkAt_update (by rwa [contains_linkAt]),
      children_linkAt_update hp', children_unlink h.forest]
    refine ⟨?_, ?_⟩
    · rw [Function.update_comm hne, Function.update_idem, Function.update_comm hne.symm]
    · rw [Function.update_of_ne hpw.symm, hdown]
      congr 1
      funext x
      by_cases hx : x = p
      · rw [hx, Function.update_self]
        exact erase_take_drop_idxOf (h.mem_children.2 hp) w
      · have hxn : d.parent? n ≠ some x := by
          rw [hp, ne_eq, Option.some.injEq]
          exact Ne.symm hx
        rw [Function.update_of_ne hx, hkeep x hxn]
        exact List.erase_of_not_mem fun hmem => hxn (h.mem_children.1 hmem)

theorem others_replace (hx : d.parent? n ≠ some x) :
    (d.others x w).replace n w = d.others x w :=
  List.replace_of_not_mem fun hmem => hx (h.mem_children.1 (List.mem_filter.1 hmem).1)

end

end Linked

theorem wrap_links (h : d.Linked) (he : d.wrap n w = .ok e) :
    e.parent? =
        Function.update (Function.update (d.setAside w).parent? w (d.parent? n)) n (some w) ∧
      e.children w = [n] ∧ ∀ x, x ≠ w → e.children x = (d.others x w).replace n w := by
  obtain ⟨hw, hn, -, hapart, rfl⟩ := (wrap_eq_ok h).1 he
  have hrel := relinked_setAside d w
  have hne : n ≠ w := fun he => hapart (he ▸ .refl)
  have hnw : d.parent? n ≠ some w := fun hp => hapart (.step hp .refl)
  obtain ⟨hup, hdown⟩ := (h.setAside w).enclose_links (n := n) (w := w) (by rwa [hrel.contains])
    (by rw [hrel.contains]; exact contains_of_isElement hw) hne (parent?_unlink_self _ w)
    (h.children_setAside_self w)
  rw [h.parent?_setAside_of_ne hne hnw] at hup
  refine ⟨hup, ?_, fun x hx => ?_⟩
  · rw [← setAside, hdown, Function.update_self]
  · rw [← setAside, hdown, Function.update_of_ne hx, h.children_setAside_of_ne hx]

section
variable (h : d.WellFormed) (he : d.wrap n w = .ok e)
include h he

theorem children_wrap_of_ne (hx : x ≠ w) (hxn : d.parent? n ≠ some x)
    (hxw : d.parent? w ≠ some x) : e.children x = d.children x := by
  obtain ⟨-, -, hdown⟩ := wrap_links h.linked he
  rw [hdown x hx, h.linked.others_replace hxn, h.linked.others_of_not hxw]

/-- Neither the wrapper nor a parent of the wrapper or of the node is below the wrapper. -/
theorem children_wrap_of_passes (hx : Passes d.parent? x w) : e.children x = d.children x := by
  have hgrounded := h.linked.forest.grounded
  obtain ⟨-, -, -, hapart, -⟩ := (wrap_eq_ok h.linked).1 he
  refine children_wrap_of_ne h he (fun hxw => ?_) (fun hxn => ?_) fun hxw => ?_
  · exact hgrounded.not_passes_self w (hxw ▸ hx)
  · exact hapart (.step hxn hx.reaches)
  · exact hgrounded.not_reaches_of_passes hx (.step hxw .refl)

theorem wrap_wrapped : Wrapped d n w e := by
  have hl := h.linked
  obtain ⟨-, -, -, hapart, -⟩ := (wrap_eq_ok hl).1 he
  obtain ⟨hup, hself, hdown⟩ := wrap_links hl he
  have hne : n ≠ w := fun he => hapart (he ▸ .refl)
  have hnw : d.parent? n ≠ some w := fun hp => hapart (.step hp .refl)
  have hparent : ∀ x, x ≠ n → x ≠ w → e.parent? x = (d.setAside w).parent? x := fun x hxn hxw => by
    rw [hup, Function.update_of_ne hxn, Function.update_of_ne hxw]
  have hlinked := (Command.wellFormed_apply h (c := .wrap n w) he).linked
  refine ⟨hself, ?_, ?_, fun p hp => ?_, fun c hc => ?_, fun q hq hqn => ?_,
    fun x => children_wrap_of_ne h he, fun x hxn hxw hx => ?_, .wrap hl he⟩
  · rw [hup, Function.update_self]
  · rw [hup, Function.update_of_ne hne.symm, Function.update_self]
  · have hmem : n ∈ d.others p w := List.mem_filter.2 ⟨hl.mem_children.2 hp, bne_iff_ne.2 hne⟩
    obtain ⟨before, after, hsplit, hbefore⟩ := List.eq_append_cons_of_mem hmem
    have hpw : p ≠ w := fun hpw => hnw (hpw ▸ hp)
    exact ⟨before, after, hsplit, by rw [hdown p hpw, hsplit, replace_append_cons hbefore]⟩
  · have hcw := hl.mem_children.1 hc
    have hsubtree : ∀ x ∈ c :: d.descendants c, e.children x = d.children x := fun x hx =>
      children_wrap_of_passes h he (Relation.TransGen.tail' (hl.mem_cons_descendants.1 hx) hcw)
    refine ⟨?_, hl.descendants_congr hlinked hsubtree, hsubtree⟩
    rw [hparent c (fun hcn => hnw (hcn ▸ hcw)) (hl.forest.grounded.ne_of_up hcw).symm,
      hl.parent?_setAside, if_pos (.inr hcw)]
  · rw [hdown q (hl.forest.grounded.ne_of_up hq), hl.others_replace hqn]
  · rw [hparent x hxn hxw, hl.parent?_setAside_of_ne hxw hx]

end

/-! ### Unwrapping -/

/-- What unwrapping does to the links. -/
theorem unwrap_links (h : d.Linked) (hp : d.parent? n = some p) (he : d.unwrap n = .ok e) :
    (e.parent? = fun x => if x ∈ d.children n then some p else (d.setAside n).parent? x) ∧
      e.children = Function.update (d.setAside n).children p
        (d.preceding n ++ d.children n ++ d.following n) := by
  obtain ⟨q, hq, rfl⟩ := unwrap_eq_ok.1 he
  obtain rfl : p = q := Option.some.inj (hp.symm.trans hq)
  rw [← setAside]
  have hrel := relinked_setAside d n
  have hp' : (d.setAside n).contains p = true := by
    rw [hrel.contains]; exact h.contains_parent hp
  have hchildren : ∀ c ∈ d.children n, (d.setAside n).contains c = true := fun c hc => by
    rw [hrel.contains]; exact h.contains_child hc
  have hothers : (d.setAside n).children p = d.preceding n ++ d.following n := by
    rw [h.children_setAside_of_ne (h.forest.grounded.ne_of_up hp), h.others_eq hp]
  have hlen : d.offset n + 0 = (d.preceding n).length := (h.length_preceding hp).symm
  have hle : d.offset n + 0 ≤ ((d.setAside n).children p).length := by
    rw [hothers, hlen, List.length_append]; omega
  refine ⟨parent?_foldl_linkAt (d.offset n) hchildren, ?_⟩
  rw [children_foldl_linkAt (d.offset n) hp' hle, hothers, hlen, List.take_left, List.drop_left]

theorem unwrap_unwrapped (h : d.Linked) (he : d.unwrap n = .ok e) : Unwrapped d n e := by
  obtain ⟨p, hp, -⟩ := unwrap_eq_ok.1 he
  obtain ⟨hup, hdown⟩ := unwrap_links h hp he
  have hrel := Relinked.unwrap he
  have hpn : p ≠ n := h.forest.grounded.ne_of_up hp
  have hself : n ∉ d.children n := fun hn =>
    h.forest.grounded.ne_of_up (h.mem_children.1 hn) rfl
  refine ⟨?_, ?_, ?_, ⟨p, d.preceding n, d.following n, hp, h.children_eq hp, ?_, fun c hc => ?_⟩,
    fun x hx hxp => ?_, fun x hx hxn => ?_, hrel⟩
  · rw [hrel.contains]
    exact contains_of_parent? hp
  · rw [hup]
    exact (if_neg hself).trans (parent?_unlink_self _ n)
  · rw [hdown, Function.update_of_ne hpn.symm, h.children_setAside_self]
  · rw [hdown, Function.update_self]
  · rw [hup]
    exact if_pos hc
  · rw [hdown, Function.update_of_ne (fun hxp' : x = p => hxp (hxp' ▸ hp)),
      h.children_setAside_of_ne hx, h.others_of_not hxp]
  · rw [hup]
    exact (if_neg fun hmem => hxn (h.mem_children.1 hmem)).trans
      (h.parent?_setAside_of_ne hx hxn)

theorem Wrapped.parent?_of_ne (h : d.Linked) (hwrapped : Wrapped d n w e) (hxn : x ≠ n)
    (hxw : x ≠ w) : e.parent? x = (d.setAside w).parent? x := by
  by_cases hx : d.parent? x = some w
  · rw [(hwrapped.dropped x (h.mem_children.2 hx)).1, h.parent?_setAside, if_pos (.inr hx)]
  · rw [hwrapped.other_parent? x hxn hxw hx, h.parent?_setAside_of_ne hxw hx]

theorem Wrapped.children_of_ne (h : d.Linked) (hwrapped : Wrapped d n w e) (hxw : x ≠ w)
    (hxn : d.parent? n ≠ some x) : e.children x = (d.setAside w).children x := by
  rw [h.children_setAside_of_ne hxw]
  by_cases hx : d.parent? w = some x
  · exact hwrapped.former x hx hxn
  · rw [hwrapped.other_children x hxw hxn hx, h.others_of_not hx]

/-- A wrapper that is taken off again has only been set aside. -/
theorem unwrap_of_wrap (h : d.WellFormed) (he : d.wrap n w = .ok e) (hp : d.parent? n = some p) :
    e.unwrap w = .ok (d.setAside w) := by
  have hl := h.linked
  have hwrapped := wrap_wrapped h he
  have hlinked := (Command.wellFormed_apply h (c := .wrap n w) he).linked
  have hpw : e.parent? w = some p := hwrapped.wrapper.trans hp
  obtain ⟨f, hf⟩ : ∃ f, e.unwrap w = .ok f := ⟨_, unwrap_eq_ok.2 ⟨p, hpw, rfl⟩⟩
  have hunwrapped := unwrap_unwrapped hlinked hf
  obtain ⟨before, after, hothers, hplace⟩ := hwrapped.place p hp
  obtain ⟨q, before', after', hq, hsplit, hplace', hlift⟩ := hunwrapped.place
  obtain rfl : p = q := Option.some.inj (hpw.symm.trans hq)
  obtain ⟨-, rfl, rfl⟩ := hlinked.children_eq_iff.1 hplace
  obtain ⟨-, rfl, rfl⟩ := hlinked.children_eq_iff.1 hsplit
  rw [hwrapped.children_eq] at hplace' hlift
  have hnw : d.parent? n ≠ some w := fun hp' => by
    have hpw' : p = w := Option.some.inj (hp.symm.trans hp')
    exact hlinked.forest.grounded.ne_of_up hpw hpw'
  have hnw' : n ≠ w := (hlinked.forest.grounded.ne_of_up hwrapped.parent?).symm
  have hfd : f = d.setAside w := by
    refine ((relinked_setAside d w).symm.trans
      (hwrapped.relinked.trans hunwrapped.relinked)).eq_of_links ?_ ?_
    · funext x
      by_cases hxw : x = w
      · rw [hxw, hunwrapped.parent?, setAside, parent?_unlink_self]
      by_cases hxn : x = n
      · rw [hxn, hlift n List.mem_cons_self, hl.parent?_setAside_of_ne hnw' hnw, hp]
      · have hx : e.parent? x ≠ some w := fun hx => by
          rw [← hlinked.mem_children, hwrapped.children_eq] at hx
          exact hxn (List.mem_singleton.1 hx)
        rw [hunwrapped.other_parent? x hxw hx, hwrapped.parent?_of_ne hl hxn hxw]
    · funext x
      by_cases hxw : x = w
      · rw [hxw, hunwrapped.children_eq, hl.children_setAside_self]
      by_cases hxp : x = p
      · rw [hxp, hplace', hl.children_setAside_of_ne (hxp ▸ hxw), hothers, List.append_assoc]
        rfl
      · have hx : some p ≠ some x := fun hx => hxp (Option.some.inj hx).symm
        rw [hunwrapped.other_children x hxw (hpw ▸ hx), hwrapped.children_of_ne hl hxw (hp ▸ hx)]
  rw [hf, hfd]

/-- What wrapping and unwrapping do to a document. A wrapper that is put around a node with a place
and then taken off leaves what clearing and detaching it leaves, so the same document if it stood
alone before. -/
theorem wrap_unwrap (h : Reachable d) :
    (∀ n w e, d.wrap n w = .ok e → Wrapped d n w e) ∧
    (∀ n e, d.unwrap n = .ok e → Unwrapped d n e) ∧
    ∀ n w p e, d.parent? n = some p → d.wrap n w = .ok e →
      ∃ f, e.unwrap w = .ok f ∧ (do (← d.clear w).detach w) = .ok f ∧
        (d.parent? w = none → d.children w = [] → f = d) := by
  have hw := wellFormed_of_reachable h
  refine ⟨fun _ _ _ => wrap_wrapped hw, fun _ _ => unwrap_unwrapped hw.linked,
    fun n w p e hp he => ⟨d.setAside w, unwrap_of_wrap hw he hp, clear_detach ?_,
      hw.linked.setAside_eq⟩⟩
  obtain ⟨helement, -⟩ := (wrap_eq_ok hw.linked).1 he
  exact contains_of_isElement helement

/-- The wrapper comes from below the node and has a text of its own. -/
theorem wrap_unwrap_from_below : ∃ d e f : Document, d.children .root = [⟨1, 0⟩] ∧
    d.children ⟨1, 0⟩ = [⟨2, 0⟩, ⟨4, 0⟩] ∧ d.children ⟨2, 0⟩ = [⟨3, 0⟩] ∧
      d.wrap ⟨1, 0⟩ ⟨2, 0⟩ = .ok e ∧ Wrapped d ⟨1, 0⟩ ⟨2, 0⟩ e ∧ e.parent? ⟨3, 0⟩ = none ∧
        e.unwrap ⟨2, 0⟩ = .ok f ∧ (do (← d.clear ⟨2, 0⟩).detach ⟨2, 0⟩) = .ok f := by
  obtain ⟨d, hd, htop, ha, hb, hp, e, he⟩ : ∃ d : Document, Reachable d ∧
      d.children .root = [⟨1, 0⟩] ∧ d.children ⟨1, 0⟩ = [⟨2, 0⟩, ⟨4, 0⟩] ∧
        d.children ⟨2, 0⟩ = [⟨3, 0⟩] ∧ d.parent? ⟨1, 0⟩ = some .root ∧
          ∃ e, d.wrap ⟨1, 0⟩ ⟨2, 0⟩ = .ok e := by
    refine ⟨_, @Reachable.ofSignals .default [.startTag "a" [], .startTag "b" [], .text "s",
      .endTag "b", .text "t", .endTag "a"] _ rfl, ?_, ?_, ?_, ?_, _, rfl⟩
    · decide +kernel
    · decide +kernel
    · decide +kernel
    · decide +kernel
  obtain ⟨hwrap, -, hback⟩ := wrap_unwrap hd
  obtain ⟨f, hf, hclear, -⟩ := hback _ _ _ e hp he
  have hwrapped := hwrap _ _ e he
  have hdropped := (hwrapped.dropped ⟨3, 0⟩ (hb ▸ List.mem_singleton_self _)).1
  exact ⟨d, e, f, htop, ha, hb, he, hwrapped, hdropped, hf, hclear⟩

end Document

end MarkupTree
