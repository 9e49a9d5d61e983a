import MarkupTree.Proofs.Document.Moves

/-!
# Merging texts in place

While the children of a node are gone through they are loose: they stand nowhere, and all that are
kept can be put back below the node. Only texts are reclaimed, and nothing is below a text.
-/

namespace MarkupTree.Document

variable {d e : Document} {x y p c : NodeId}

theorem Linked.descendants_of_isText (h : d.Linked) (hx : d.isText x = true) :
    d.descendants x = [] := by
  rw [h.descendants_eq_flatMap, h.text hx, List.flatMap_nil]

/-- Nodes that are no texts keep their kinds. -/
def KeepsContainers (d e : Document) : Prop :=
  ∀ x k, d.kind? x = some k → k ≠ .text → e.kind? x = some k

namespace KeepsContainers

theorem refl (d : Document) : KeepsContainers d d := fun _ _ h _ => h

theorem trans {f : Document} (h : KeepsContainers d e) (h' : KeepsContainers e f) :
    KeepsContainers d f := fun x k hk hne => h' x k (h x k hk hne) hne

theorem relinked (h : Relinked d e) : KeepsContainers d e := fun x k hk _ => by
  rw [h.kind?]; exact hk

theorem setContent {content : Content} (hx : d.kind? x = some content.kind) :
    KeepsContainers d (d.setContent x content) := fun y k hk _ => by
  rw [kind?_setContent hx]; exact hk

theorem reclaim (h : d.Linked) (hx : d.isText x = true) : KeepsContainers d (d.reclaim x) := by
  intro y k hk hne
  have hyx : y ≠ x := by
    rintro rfl
    rw [isText_iff.1 hx, Option.some.injEq] at hk
    exact hne hk.symm
  rw [h.kind?_reclaim (contains_of_isText hx), h.descendants_of_isText hx, if_neg (by simpa using hyx)]
  exact hk

end KeepsContainers

/-- `c` stands nowhere and can be put below `p`. -/
structure Loose (d : Document) (p c : NodeId) : Prop where
  insertable : d.Insertable p c
  detached : d.parent? c = none

theorem Loose.setContent {content : Content} (h : d.Loose p c)
    (hx : d.kind? x = some content.kind) : (d.setContent x content).Loose p c := by
  have hi := h.insertable
  refine ⟨⟨?_, ?_, ?_, ?_, ?_⟩, ?_⟩
  · rw [contains_setContent]; exact hi.parent
  · rw [contains_setContent]; exact hi.child
  · rw [isText_iff, kind?_setContent hx, ← isText_iff]; exact hi.container
  · rw [isDocument_iff, kind?_setContent hx, ← isDocument_iff]; exact hi.not_document
  · rw [parent?_setContent]; exact hi.apart
  · rw [parent?_setContent]; exact h.detached

/-- A text that is reclaimed takes no other loose node away. -/
theorem Loose.reclaim (hl : d.Linked) (h : d.Loose p c) (hx : d.isText x = true) (hcx : c ≠ x) :
    (d.reclaim x).Loose p c := by
  have hi := h.insertable
  have hlive := contains_of_isText hx
  have hgone : ∀ y, y ∈ x :: d.descendants x ↔ y = x := fun y => by
    rw [hl.descendants_of_isText hx, List.mem_singleton]
  have hpx : p ≠ x := fun e => hi.container (e ▸ hx)
  have hkind : ∀ {y}, y ≠ x → (d.reclaim x).kind? y = d.kind? y := fun {y} hy => by
    rw [hl.kind?_reclaim hlive, if_neg fun hm => hy ((hgone y).1 hm)]
  have hup : ∀ y r, (d.reclaim x).parent? y = some r → d.parent? y = some r := by
    intro y r hy
    simp only [hl.parent?_reclaim hlive, Option.ite_none_left_eq_some] at hy
    exact hy.2
  refine ⟨⟨?_, ?_, ?_, ?_, fun hr => hi.apart (hr.mono hup)⟩, ?_⟩
  · exact (hl.contains_reclaim hlive p).2 ⟨fun hm => hpx ((hgone p).1 hm), hi.parent⟩
  · exact (hl.contains_reclaim hlive c).2 ⟨fun hm => hcx ((hgone c).1 hm), hi.child⟩
  · rw [isText_iff, hkind hpx, ← isText_iff]; exact hi.container
  · rw [isDocument_iff, hkind hcx, ← isDocument_iff]; exact hi.not_document
  · have hnone := h.detached
    cases hr : (d.reclaim x).parent? c with
    | none => rfl
    | some r => rw [hup c r hr] at hnone; cases hnone

/-- The state of the loop: the document is well-formed and the children, kept and to come, are
loose and different. -/
structure Merging (d : Document) (p : NodeId) (kept rest : List NodeId) : Prop where
  wellFormed : d.WellFormed
  nodup : (kept ++ rest).Nodup
  loose : ∀ c ∈ kept ++ rest, d.Loose p c

namespace Merging

variable {kept rest : List NodeId}

theorem keep (h : d.Merging p kept (c :: rest)) : d.Merging p (c :: kept) rest :=
  ⟨h.wellFormed, List.perm_middle.nodup_iff.1 h.nodup,
    fun y hy => h.loose y (List.perm_middle.mem_iff.2 hy)⟩

theorem reclaim (h : d.Merging p kept (c :: rest)) (hc : d.isText c = true) :
    (d.reclaim c).Merging p kept rest := by
  have hloose := h.loose c (List.mem_append_right kept List.mem_cons_self)
  have hnd := List.nodup_cons.1 (List.perm_middle.nodup_iff.1 h.nodup)
  have hroot : c ≠ .root := fun e => hloose.insertable.not_document
    (isDocument_iff.2 (by rw [e, kind?, h.wellFormed.root]; rfl))
  refine ⟨h.wellFormed.reclaim hloose.insertable.child hloose.detached hroot, hnd.2,
    fun y hy => ?_⟩
  have hyc : y ≠ c := fun e => hnd.1 (e ▸ hy)
  exact (h.loose y (List.perm_middle.mem_iff.2 (List.mem_cons_of_mem c hy))).reclaim
    h.wellFormed.linked hc hyc

theorem setText (h : d.Merging p kept rest) (hx : d.isText x = true) (text : String) :
    (d.setContent x (.text text)).Merging p kept rest :=
  ⟨h.wellFormed.setContent (isText_iff.1 hx) trivial, h.nodup,
    fun y hy => (h.loose y hy).setContent (isText_iff.1 hx)⟩

end Merging

theorem isText_of_text? {text : String} (h : d.text? x = some text) : d.isText x = true := by
  obtain ⟨c, hc, ht⟩ := Option.bind_eq_some_iff.1 h
  rw [isText_iff, kind?, hc]
  cases c with
  | text => rfl
  | document => cases ht
  | element => cases ht

end MarkupTree.Document

namespace MarkupTree.InPlace

open Document

variable {d : Document} {x p : NodeId}

theorem fetch_eq (hx : d.contains x = true) :
    ∃ node, fetch x d = .ok node d ∧ d.kind? x = some node.kind ∧
      d.text? x = node.content.text? := by
  obtain ⟨node, hn⟩ := contains_iff.1 hx
  exact ⟨node, fetch_of_get? hn, kind?_of_get? hn, by simp [text?, content?, hn]⟩

theorem lastText_eq {kept : List NodeId} (h : ∀ c ∈ kept, d.contains c = true) :
    lastText kept d =
      .ok (kept.head?.bind fun last => (d.text? last).map fun run => (last, run)) d := by
  cases kept with
  | nil => rfl
  | cons last kept =>
    obtain ⟨node, hrun, -, htext⟩ := fetch_eq (h last List.mem_cons_self)
    rw [lastText, bind_of_ok hrun, List.head?_cons, Option.bind_some, htext]
    rfl

theorem mergeLoop_eq : ∀ {rest kept : List NodeId} {d : Document}, d.Merging p kept rest →
    mergeLoop kept rest d = .ok (d.mergeTexts kept rest).2 (d.mergeTexts kept rest).1 ∧
      (d.mergeTexts kept rest).1.Merging p (d.mergeTexts kept rest).2 [] ∧
      KeepsContainers d (d.mergeTexts kept rest).1
  | [], kept, d, h => by
    refine ⟨rfl, ⟨h.wellFormed, ?_, fun c hc => h.loose c ?_⟩, .refl d⟩
    · rw [List.append_nil]
      exact List.nodup_reverse.2 (List.append_nil kept ▸ h.nodup)
    · simpa [mergeTexts] using hc
  | child :: rest, kept, d, h => by
    have hkept : ∀ c ∈ kept, d.contains c = true := fun c hc =>
      (h.loose c (List.mem_append_left _ hc)).insertable.child
    have hchild := h.loose child (List.mem_append_right kept List.mem_cons_self)
    obtain ⟨node, hrun, -, htext⟩ := fetch_eq hchild.insertable.child
    rw [mergeLoop, bind_of_ok hrun, mergeTexts, htext]
    rw [← htext]
    cases ht : d.text? child with
    | none => exact mergeLoop_eq h.keep
    | some text =>
      have hc := isText_of_text? ht
      have hfree := freeSubtree_eq h.wellFormed hchild.insertable.child hchild.detached
      have hkeeps := KeepsContainers.reclaim h.wellFormed.linked hc
      simp only
      rw [bind_of_ok (lastText_eq hkept)]
      by_cases hempty : text.isEmpty = true
      · rw [if_pos hempty, if_pos hempty, bind_of_ok hfree]
        obtain ⟨hloop, hm, hk⟩ := mergeLoop_eq (h.reclaim hc)
        exact ⟨hloop, hm, hkeeps.trans hk⟩
      rw [if_neg hempty, if_neg hempty]
      cases kept with
      | nil => exact mergeLoop_eq h.keep
      | cons last kept =>
        simp only [List.head?_cons, Option.bind_some]
        cases hlast : d.text? last with
        | none => exact mergeLoop_eq h.keep
        | some run =>
          have hl := isText_of_text? hlast
          have hset := h.setText hl (run ++ text)
          have hchange : change last (fun node => { node with content := .text (run ++ text) }) d =
              .ok () (d.setContent last (.text (run ++ text))) :=
            change_of_contains (contains_of_isText hl) _
          have hc' : (d.setContent last (.text (run ++ text))).isText child = true := by
            rw [isText_iff, kind?_setContent (isText_iff.1 hl), ← isText_iff]; exact hc
          have hchild' := hset.loose child (List.mem_append_right _ List.mem_cons_self)
          obtain ⟨hloop, hm, hk⟩ := mergeLoop_eq (hset.reclaim hc')
          refine ⟨?_, hm, ?_⟩
          · show (change last _ >>= fun _ => freeSubtree child >>= fun _ => _) d = _
            rw [bind_of_ok hchange, bind_of_ok (freeSubtree_eq hset.wellFormed
              hchild'.insertable.child hchild'.detached), hloop]
          · exact ((KeepsContainers.setContent (isText_iff.1 hl)).trans
              (KeepsContainers.reclaim hset.wellFormed.linked hc')).trans hk

/-- Before the loop the children of a node are taken away from it. -/
theorem merging_orphan (h : d.WellFormed) (hx : d.contains x = true) :
    (d.orphan x).Merging x [] (d.children x) := by
  refine ⟨h.orphan x, h.linked.forest.nodup x, fun c hc => ?_⟩
  rw [List.nil_append] at hc
  have hup := h.linked.mem_children.1 hc
  have hr := Relinked.orphan d x
  have hle : ∀ y r, (d.orphan x).parent? y = some r → d.parent? y = some r := fun y r hy =>
    parent?_of_orphan (fun _ => h.linked.mem_children) hy
  refine ⟨⟨?_, ?_, ?_, ?_, fun hxc => ?_⟩, ?_⟩
  · rw [hr.contains]; exact hx
  · rw [hr.contains]; exact contains_of_parent? hup
  · rw [hr.isText]; exact h.linked.not_isText_parent hup
  · rw [hr.isDocument]; exact h.linked.not_isDocument_child hup
  · exact h.linked.forest.grounded.not_reaches_of_passes (.single hup) (hxc.mono hle)
  · rw [parent?_orphan fun _ => h.linked.mem_children]
    exact if_pos hup

theorem normalizeOne_eq (h : d.WellFormed) (hx : d.contains x = true) :
    normalizeOne x d = .ok () (d.normalizeOne x) ∧ (d.normalizeOne x).WellFormed ∧
      KeepsContainers d (d.normalizeOne x) := by
  obtain ⟨hloop, hm, hk⟩ := mergeLoop_eq (merging_orphan h hx)
  rw [normalizeOne, bind_of_ok (takeChildren_eq h hx), bind_of_ok hloop, Document.normalizeOne]
  generalize (d.orphan x).mergeTexts [] (d.children x) = merged at hm hk
  obtain ⟨e, kept⟩ := merged
  have hnd : kept.Nodup := List.append_nil kept ▸ hm.nodup
  have hloose : ∀ c ∈ kept, e.Loose x c := fun c hc => hm.loose c (List.mem_append_left _ hc)
  have hkeeps : KeepsContainers d (e.adopt x kept) :=
    ((KeepsContainers.relinked (Relinked.orphan d x)).trans hk).trans
      (.relinked (Relinked.adopt e x kept))
  cases kept with
  | nil => exact ⟨rfl, hm.wellFormed, hkeeps⟩
  | cons c kept =>
    have hp := (hloose c List.mem_cons_self).insertable.parent
    exact ⟨adopt_of_detached hp hnd fun c hc => ⟨(hloose c hc).insertable.child,
      (hloose c hc).detached⟩, hm.wellFormed.adopt hnd fun c hc => ⟨(hloose c hc).insertable,
      (hloose c hc).detached⟩, hkeeps⟩

theorem containers_eq : ∀ {l : List NodeId}, (∀ x ∈ l, d.contains x = true) →
    containers l d = .ok (l.filter fun x => !d.isText x) d
  | [], _ => rfl
  | x :: l, h => by
    obtain ⟨node, hrun, hkind, -⟩ := fetch_eq (h x List.mem_cons_self)
    have hrest := containers_eq fun y hy => h y (List.mem_cons_of_mem x hy)
    rw [containers, bind_of_ok hrun, bind_of_ok hrest, List.filter_cons, isText, hkind]
    by_cases hk : node.kind = .text
    · rw [if_pos hk, hk]; rfl
    · rw [if_neg hk, if_pos (by simpa using hk)]; rfl

/-- Merging in one node leaves the others to be merged in. -/
theorem normalizeAll_eq {xs : List NodeId} (h : d.WellFormed)
    (hxs : ∀ x ∈ xs, d.contains x = true ∧ ¬ d.isText x = true) :
    xs.forM normalizeOne d = .ok () (xs.foldl Document.normalizeOne d) ∧
      (xs.foldl Document.normalizeOne d).WellFormed := by
  induction xs generalizing d with
  | nil => exact ⟨rfl, h⟩
  | cons x xs ih =>
    obtain ⟨hrun, hwf, hk⟩ := normalizeOne_eq h (hxs x List.mem_cons_self).1
    obtain ⟨hrun', hwf'⟩ := ih hwf fun y hy => by
      obtain ⟨hlive, htext⟩ := hxs y (List.mem_cons_of_mem x hy)
      obtain ⟨node, hn⟩ := contains_iff.1 hlive
      rw [isText_iff, kind?_of_get? hn, Option.some.injEq] at htext
      have hkind := hk y node.kind (kind?_of_get? hn) htext
      refine ⟨contains_of_kind? hkind, ?_⟩
      rw [isText_iff, hkind, Option.some.injEq]
      exact htext
    refine ⟨?_, hwf'⟩
    show (normalizeOne x >>= fun _ => xs.forM normalizeOne) d = _
    rw [bind_of_ok hrun, hrun', List.foldl_cons]

theorem normalize_carries (h : d.WellFormed) : Carries d (normalize x) (d.normalize x) := by
  refine .check rfl fun _ hx => ?_
  have hx := exists_require.1 ⟨_, hx⟩
  have hlive : ∀ y ∈ x :: d.descendants x, d.contains y = true := by
    intro y hy
    rcases List.mem_cons.1 hy with rfl | hy
    · exact hx
    · exact h.linked.contains_of_mem_descendants hy
  have hxs : ∀ y ∈ (x :: d.descendants x).filter fun y => !d.isText y,
      d.contains y = true ∧ ¬ d.isText y = true := by
    intro y hy
    rw [List.mem_filter] at hy
    exact ⟨hlive y hy.1, by simpa using hy.2⟩
  have hall := normalizeAll_eq h hxs
  refine ⟨?_, hall.2⟩
  rw [get_bind, bind_of_ok (containers_eq hlive), hall.1]

end MarkupTree.InPlace
