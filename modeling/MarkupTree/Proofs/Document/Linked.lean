import MarkupTree.Proofs.Document.Links

/-!
# Documents whose links are in order

`Linked`: up and down links are a forest, texts have nothing below them and document nodes nothing
above them. Taking a node out keeps this, and so does putting in a node that is `Insertable`.
-/

namespace MarkupTree.Document

variable {d e : Document} {x y p c c' : NodeId}

structure Linked (d : Document) : Prop where
  forest : Forest d.parent? d.children
  text : ∀ {x}, d.isText x = true → d.children x = []
  document : ∀ {x}, d.isDocument x = true → d.parent? x = none

/-- `c` can be put below `p`. -/
structure Insertable (d : Document) (p c : NodeId) : Prop where
  parent : d.contains p = true
  child : d.contains c = true
  container : ¬ d.isText p = true
  not_document : ¬ d.isDocument c = true
  apart : ¬ Reaches d.parent? p c

theorem isText_iff : d.isText x = true ↔ d.kind? x = some .text := by simp [isText]

theorem isDocument_iff : d.isDocument x = true ↔ d.kind? x = some .document := by simp [isDocument]

theorem isElement_iff : d.isElement x = true ↔ d.kind? x = some .element := by simp [isElement]

theorem contains_of_isElement (h : d.isElement x = true) : d.contains x = true :=
  contains_of_kind? (isElement_iff.1 h)

theorem contains_of_isText (h : d.isText x = true) : d.contains x = true :=
  contains_of_kind? (isText_iff.1 h)

theorem not_isText_of_isElement (h : d.isElement x = true) : ¬ d.isText x = true := by
  rw [isElement_iff] at h; simp [isText_iff, h]

theorem not_isDocument_of_isElement (h : d.isElement x = true) : ¬ d.isDocument x = true := by
  rw [isElement_iff] at h; simp [isDocument_iff, h]

theorem not_isText_of_isDocument (h : d.isDocument x = true) : ¬ d.isText x = true := by
  rw [isDocument_iff] at h; simp [isText_iff, h]

namespace Linked

theorem mem_children (h : d.Linked) : x ∈ d.children p ↔ d.parent? x = some p := h.forest.mem_down

theorem contains_parent (h : d.Linked) (hx : d.parent? x = some p) : d.contains p = true :=
  contains_of_mem_children (h.mem_children.2 hx)

theorem contains_child (h : d.Linked) (hx : x ∈ d.children p) : d.contains x = true :=
  contains_of_parent? (h.mem_children.1 hx)

theorem not_isText_parent (h : d.Linked) (hx : d.parent? x = some p) : ¬ d.isText p = true := by
  intro hp
  have := h.mem_children.2 hx
  rw [h.text hp] at this
  cases this

theorem not_isDocument_child (h : d.Linked) (hx : d.parent? x = some p) :
    ¬ d.isDocument x = true := fun hd => by rw [h.document hd] at hx; cases hx

/-- A child that is no text is an element. -/
theorem isElement_child (h : d.Linked) (hx : d.parent? x = some p) (htext : ¬ d.isText x = true) :
    d.isElement x = true := by
  have hdoc := h.not_isDocument_child hx
  obtain ⟨content, hcontent⟩ := contains_iff_content?.1 (contains_of_parent? hx)
  rw [isDocument_iff, kind?, hcontent] at hdoc
  rw [isText_iff, kind?, hcontent] at htext
  rw [isElement_iff, kind?, hcontent]
  cases content with
  | document => exact absurd rfl hdoc
  | element name as => rfl
  | text s => exact absurd rfl htext

/-- Links in order stay so if the new links are a forest that keeps texts and document nodes in
their places. -/
theorem relink (h : d.Linked) (hr : Relinked d e) (hf : Forest e.parent? e.children)
    (htext : ∀ x, d.isText x = true → d.children x = [] → e.children x = [])
    (hdoc : ∀ x, d.isDocument x = true → d.parent? x = none → e.parent? x = none) : e.Linked := by
  refine ⟨hf, fun {x} hx => ?_, fun {x} hx => ?_⟩
  · rw [hr.isText] at hx; exact htext x hx (h.text hx)
  · rw [hr.isDocument] at hx; exact hdoc x hx (h.document hx)

theorem unlink (h : d.Linked) (x : NodeId) : (d.unlink x).Linked := by
  refine h.relink (Relinked.unlink d x) ?_ (fun y _ hy => ?_) fun y _ hy => ?_
  · rw [parent?_unlink, children_unlink h.forest]; exact h.forest.unlink x
  · simp only [children_unlink h.forest, hy, List.erase_nil]
  · by_cases hyx : y = x
    · rw [hyx, parent?_unlink_self]
    · rwa [parent?_unlink_of_ne hyx]

theorem linkAt (h : d.Linked) (hi : d.Insertable p c) (hc : d.parent? c = none) (n : Nat) :
    (d.linkAt p n c).Linked := by
  refine h.relink (Relinked.linkAt d p n c) ?_ (fun y hy hnil => ?_) fun y hy hnone => ?_
  · rw [parent?_linkAt hi.child, children_linkAt_update hi.parent]
    exact h.forest.link hc hi.apart n
  · have hyp : y ≠ p := fun e => hi.container (e ▸ hy)
    rw [children_linkAt_update hi.parent, Function.update_of_ne hyp, hnil]
  · have hyc : y ≠ c := fun e => hi.not_document (e ▸ hy)
    rw [parent?_linkAt hi.child, Function.update_of_ne hyc, hnone]

theorem orphan (h : d.Linked) (x : NodeId) : (d.orphan x).Linked := by
  refine h.relink (Relinked.orphan d x) ?_ (fun y _ hy => ?_) fun y _ hy => ?_
  · rw [parent?_orphan fun _ => h.mem_children, children_orphan]; exact h.forest.orphan x
  · rw [children_orphan]
    by_cases hyx : y = x
    · rw [hyx, Function.update_self]
    · rwa [Function.update_of_ne hyx]
  · rw [parent?_orphan fun _ => h.mem_children]; simp [hy]

end Linked

namespace Insertable

theorem not_self (h : d.Insertable p c) : p ≠ c := fun e => h.apart (e ▸ .refl)

theorem relink (h : d.Insertable p c) (hr : Relinked d e)
    (hapart : ¬ Reaches e.parent? p c) : e.Insertable p c :=
  ⟨by rw [hr.contains]; exact h.parent, by rw [hr.contains]; exact h.child,
    by rw [hr.isText]; exact h.container, by rw [hr.isDocument]; exact h.not_document, hapart⟩

theorem unlink (h : d.Insertable p c) (x : NodeId) : (d.unlink x).Insertable p c := by
  refine h.relink (Relinked.unlink d x) fun hr => h.apart (hr.mono fun y q hy => ?_)
  exact parent?_of_unlink hy

/-- What can be put below `p` still can once another node has been put there. -/
theorem linkAt (h : d.Insertable p c) (h' : d.Insertable p c') (n : Nat) :
    (d.linkAt p n c).Insertable p c' := by
  refine h'.relink (Relinked.linkAt d p n c) fun hr => h'.apart ?_
  rw [parent?_linkAt h.child] at hr
  exact (Reaches.congr_of_not (fun y hy => Function.update_of_ne hy _ _) h.apart).1 hr

end Insertable

/-- Nodes without parents are put below `p` one after the other. -/
theorem Linked.foldl_linkAt {β : Type} (pos : Document → β → Nat) (child : β → NodeId) :
    ∀ {bs : List β} {d : Document}, d.Linked → (bs.map child).Nodup →
      (∀ b ∈ bs, d.Insertable p (child b) ∧ d.parent? (child b) = none) →
      (bs.foldl (fun d b => d.linkAt p (pos d b) (child b)) d).Linked
  | [], _, h, _, _ => h
  | b :: bs, d, h, hnd, hbs => by
    obtain ⟨hi, hup⟩ := hbs b List.mem_cons_self
    obtain ⟨hb, hnd⟩ := List.nodup_cons.1 (List.map_cons ▸ hnd)
    rw [List.foldl_cons]
    refine foldl_linkAt pos child (h.linkAt hi hup _) hnd fun b' hb' => ?_
    obtain ⟨hi', hup'⟩ := hbs b' (List.mem_cons_of_mem b hb')
    refine ⟨hi.linkAt hi' _, ?_⟩
    have hne : child b' ≠ child b := fun e => hb (e ▸ List.mem_map_of_mem hb')
    rw [parent?_linkAt hi.child, Function.update_of_ne hne, hup']

theorem adopt_eq_foldl (d : Document) (p : NodeId) (cs : List NodeId) :
    d.adopt p cs = cs.foldl (fun d c => d.linkAt p (d.children p).length (id c)) d := by
  simp only [adopt, linkLast_eq, id]

theorem Linked.adopt {cs : List NodeId} (h : d.Linked) (hnd : cs.Nodup)
    (hcs : ∀ c ∈ cs, d.Insertable p c ∧ d.parent? c = none) : (d.adopt p cs).Linked := by
  rw [adopt_eq_foldl]
  exact h.foldl_linkAt _ id (by rwa [List.map_id]) hcs

/-- Nodes put below `p` at one place after the other stand there in their order. -/
theorem children_foldl_linkAt (n : Nat) : ∀ {cs : List NodeId} {k : Nat} {d : Document},
    d.contains p = true → n + k ≤ (d.children p).length →
    ((cs.zipIdx k).foldl (fun d (c, i) => d.linkAt p (n + i) c) d).children =
      Function.update d.children p
        ((d.children p).take (n + k) ++ cs ++ (d.children p).drop (n + k))
  | [], k, d, _, _ => by simp
  | c :: cs, k, d, hp, hlen => by
    have hp' : (d.linkAt p (n + k) c).contains p = true := by rwa [contains_linkAt]
    have hch := children_linkAt hp (n + k) c
    have hlen' : n + (k + 1) ≤ ((d.linkAt p (n + k) c).children p).length := by
      rw [hch]; simp; omega
    rw [List.zipIdx_cons, List.foldl_cons, children_foldl_linkAt n hp' hlen', hch,
      children_linkAt_update hp, Function.update_idem]
    congr 1
    have htake : ((d.children p).take (n + k)).length = n + k := by simp; omega
    have htake' : ((d.children p).take (n + k)).take (n + k + 1) = (d.children p).take (n + k) :=
      List.take_of_length_le (by omega)
    have hdrop : ((d.children p).take (n + k)).drop (n + k + 1) = [] :=
      List.drop_of_length_le (by omega)
    rw [← Nat.add_assoc, List.take_append, List.drop_append, htake, htake', hdrop]
    simp

theorem parent?_foldl_linkAt (n : Nat) : ∀ {cs : List NodeId} {k : Nat} {d : Document},
    (∀ c ∈ cs, d.contains c = true) →
    ((cs.zipIdx k).foldl (fun d (c, i) => d.linkAt p (n + i) c) d).parent? =
      fun y => if y ∈ cs then some p else d.parent? y
  | [], _, d, _ => by simp
  | c :: cs, k, d, h => by
    have hcs : ∀ c' ∈ cs, (d.linkAt p (n + k) c).contains c' = true := fun c' hc' => by
      rw [contains_linkAt]; exact h c' (List.mem_cons_of_mem c hc')
    funext y
    rw [List.zipIdx_cons, List.foldl_cons, parent?_foldl_linkAt n hcs,
      parent?_linkAt (h c List.mem_cons_self)]
    by_cases hy : y = c
    · subst hy; simp
    · simp [hy]

end MarkupTree.Document
