import MarkupTree.Proofs.Tree

/-!
# Documents that have grown

A document has grown below a node if it shows more trees behind the children of that node and
every node that was there holds what it held and has the children it had.
-/

namespace MarkupTree.Document

variable {d e f : Document} {x p : NodeId} {c : Content} {ts us : List Tree}

/-- `e` is `d` with nodes that show `ts` put behind the children of `p`. -/
structure Grown (d e : Document) (p : NodeId) (ts : List Tree) : Prop where
  content : ∀ x, d.contains x = true → e.content? x = d.content? x
  children : ∀ x, d.contains x = true → x ≠ p → e.children x = d.children x
  appended : ∃ ids, e.children p = d.children p ++ ids ∧ e.ShowsList ts ids

theorem contains_of_below (hx : d.contains x = true) {y : NodeId} (hy : Reaches d.parent? y x) :
    d.contains y = true := by
  rcases hy.cases with rfl | ⟨q, hq, -⟩
  · exact hx
  · exact contains_of_parent? hq

namespace Grown

theorem refl (d : Document) (p : NodeId) : Grown d d p [] :=
  ⟨fun _ _ => rfl, fun _ _ _ => rfl, [], (List.append_nil _).symm, trivial⟩

theorem contains (h : Grown d e p ts) (hx : d.contains x = true) : e.contains x = true := by
  obtain ⟨c, hc⟩ := contains_iff_content?.1 hx
  exact contains_iff_content?.2 ⟨c, (h.content x hx).trans hc⟩

/-- What has been put below `p` is not touched by what is put there next, since `p` is not
below itself. -/
theorem append (he : e.Linked) (h : Grown d e p ts) (h' : Grown e f p us) :
    Grown d f p (ts ++ us) := by
  obtain ⟨ids, hids, hts⟩ := h.appended
  obtain ⟨ids', hids', hus⟩ := h'.appended
  refine ⟨fun x hx => ?_, fun x hx hxp => ?_, ids ++ ids', ?_, ?_⟩
  · rw [h'.content x (h.contains hx), h.content x hx]
  · rw [h'.children x (h.contains hx) hxp, h.children x hx hxp]
  · rw [hids', hids, List.append_assoc]
  · refine showsList_append (ShowsList.frame he hts fun x hx y hy => ?_) hus
    have hx' : x ∈ e.children p := by
      rw [hids]
      exact List.mem_append_right _ hx
    have hup := he.mem_children.1 hx'
    have hylive : e.contains y = true := contains_of_below (he.contains_child hx') hy
    have hyp : y ≠ p := by
      rintro rfl
      exact he.forest.grounded.not_reaches_of_passes (passes_iff.2 ⟨y, hup, .refl⟩) hy
    exact ⟨h'.content y hylive, h'.children y hylive hyp⟩

end Grown

/-- What putting a new node behind the children of `p` makes of a document. -/
structure Added (d e : Document) (p : NodeId) (c : Content) (x : NodeId) : Prop where
  fresh : ¬ d.contains x = true
  content : e.content? = Function.update d.content? x (some c)
  children : e.children = Function.update d.children p (d.children p ++ [x])

theorem Stored.added (h : d.Stored) (hp : d.contains p = true) (c : Content) :
    Added d ((d.alloc c).1.linkLast p (d.alloc c).2) p c (d.alloc c).2 := by
  refine ⟨h.not_contains_alloc c, ?_, ?_⟩
  · funext y
    rw [(Relinked.linkLast _ p _).content?, content?_alloc h, Function.update_apply]
  · have hp' : (d.alloc c).1.contains p = true := (contains_alloc h c p).2 (.inr hp)
    rw [linkLast_eq, children_linkAt_update hp', children_alloc h]
    simp

namespace Added

variable (h : Added d e p c x)
include h

theorem content_self : e.content? x = some c := by rw [h.content, Function.update_self]

theorem content_of_contains {y : NodeId} (hy : d.contains y = true) :
    e.content? y = d.content? y := by
  have hyx : y ≠ x := fun hyx => h.fresh (hyx ▸ hy)
  rw [h.content, Function.update_of_ne hyx]

theorem contains_self : e.contains x = true := contains_iff_content?.2 ⟨c, h.content_self⟩

theorem contains_of_contains {y : NodeId} (hy : d.contains y = true) : e.contains y = true := by
  obtain ⟨c', hc'⟩ := contains_iff_content?.1 hy
  exact contains_iff_content?.2 ⟨c', (h.content_of_contains hy).trans hc'⟩

/-- A new element that grows by itself is a tree grown below `p`. -/
theorem grown_element (hp : d.contains p = true) {name : String} {as : List Attribute}
    (hc : c = .element name as) (hf : Grown e f x ts) : Grown d f p [.element name as ts] := by
  have hpx : p ≠ x := fun hpx => h.fresh (hpx ▸ hp)
  have hleaf : e.children x = [] := by
    rw [h.children, Function.update_of_ne hpx.symm, children_of_stale h.fresh]
  obtain ⟨ids, hids, hts⟩ := hf.appended
  refine ⟨fun y hy => ?_, fun y hy hyp => ?_, [x], ?_, ⟨?_, ?_⟩, trivial⟩
  · rw [hf.content y (h.contains_of_contains hy), h.content_of_contains hy]
  · have hyx : y ≠ x := fun hyx => h.fresh (hyx ▸ hy)
    rw [hf.children y (h.contains_of_contains hy) hyx, h.children, Function.update_of_ne hyp]
  · rw [hf.children p (h.contains_of_contains hp) hpx, h.children, Function.update_self]
  · rw [hf.content x h.contains_self, h.content_self, hc]
  · rw [hids, hleaf, List.nil_append]
    exact hts

theorem grown_text (hp : d.contains p = true) {s : String} (hc : c = .text s) :
    Grown d e p [.text s] := by
  have hpx : p ≠ x := fun hpx => h.fresh (hpx ▸ hp)
  refine ⟨fun y hy => h.content_of_contains hy, fun y hy hyp => ?_, [x], ?_, ⟨?_, ?_⟩, trivial⟩
  · rw [h.children, Function.update_of_ne hyp]
  · rw [h.children, Function.update_self]
  · rw [h.content_self, hc]
  · rw [h.children, Function.update_of_ne hpx.symm, children_of_stale h.fresh]

end Added

end MarkupTree.Document
