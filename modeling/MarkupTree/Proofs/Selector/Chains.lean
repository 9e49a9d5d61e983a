import MarkupTree.Proofs.Document.TreeOrder
import MarkupTree.Selector.Match

/-!
# Chains of elements

What matching stands for: a chain of elements, one for each part, each of them with what its part
asks for and in the relation that its part names to the one before it. Matching goes through the
parts from right to left and tries every element to which the last one can stand; it finds a chain
just if there is one.
-/

namespace MarkupTree

open Document

namespace Document

variable {d : Document} {x y : NodeId} {r : Combinator}

/-- `y` stands in a relation to `x`. -/
def Stands (d : Document) : Combinator → NodeId → NodeId → Prop
  | .descendant, x, y => Passes d.parent? y x
  | .child, x, y => d.parent? y = some x
  | .adjacent, x, y => d.Next x y
  | .general, x, y => d.Later x y

/-- The elements `es` satisfy the parts one by one. `start` is how the first of them has to stand;
each other one stands to the one before it as its part says. -/
def Fits (d : Document) (start : Combinator → NodeId → Prop) : List Part → List NodeId → Prop
  | [], [] => True
  | p :: ps, e :: es =>
    d.isElement e = true ∧ p.holds d e = true ∧ start p.relation e ∧
      d.Fits (fun r y => d.Stands r e y) ps es
  | _, _ => False

/-- A chain of elements that satisfies the parts ends in `e`. -/
def EndsIn (d : Document) (start : Combinator → NodeId → Prop) (ps : List Part) (e : NodeId) :
    Prop :=
  ∃ es, d.Fits start ps es ∧ es.getLast? = some e

/-- `e` matches an alternative relative to a node. -/
def Matches (d : Document) (context : NodeId) : Chain → NodeId → Prop
  | [], e => e = context
  | p :: ps, e => d.EndsIn (fun r y => d.Stands r context y) (p :: ps) e

theorem not_endsIn_nil {start : Combinator → NodeId → Prop} : ¬ d.EndsIn start [] x := by
  rintro ⟨es, hes, hlast⟩
  cases es with
  | nil => cases hlast
  | cons => exact hes

theorem endsIn_singleton {start : Combinator → NodeId → Prop} {p : Part} :
    d.EndsIn start [p] x ↔
      d.isElement x = true ∧ p.holds d x = true ∧ start p.relation x := by
  constructor
  · rintro ⟨es, hes, hlast⟩
    match es, hes with
    | [e], ⟨he, hp, hs, _⟩ =>
      cases hlast
      exact ⟨he, hp, hs⟩
  · rintro ⟨he, hp, hs⟩
    exact ⟨[x], ⟨he, hp, hs, trivial⟩, rfl⟩

/-- The first element of a chain can be told apart from the rest, which then begins beside it. -/
theorem endsIn_cons_cons {start : Combinator → NodeId → Prop} {p q : Part} {ps : List Part} :
    d.EndsIn start (p :: q :: ps) x ↔
      d.EndsIn (fun r z => ∃ y, d.isElement y = true ∧ p.holds d y = true ∧
        start p.relation y ∧ d.Stands r y z) (q :: ps) x := by
  constructor
  · rintro ⟨es, hes, hlast⟩
    match es, hes with
    | y :: z :: es, ⟨hy, hp, hs, hz, hq, hr, hes⟩ =>
      exact ⟨z :: es, ⟨hz, hq, ⟨y, hy, hp, hs, hr⟩, hes⟩, hlast⟩
  · rintro ⟨es, hes, hlast⟩
    match es, hes with
    | z :: es, ⟨hz, hq, ⟨y, hy, hp, hs, hr⟩, hes⟩ =>
      exact ⟨y :: z :: es, ⟨hy, hp, hs, hz, hq, hr, hes⟩, hlast⟩

theorem EndsIn.congr {start start' : Combinator → NodeId → Prop}
    (h : ∀ r z, d.isElement z = true → (start r z ↔ start' r z)) {ps : List Part} :
    d.EndsIn start ps x ↔ d.EndsIn start' ps x := by
  have hfits : ∀ es, d.Fits start ps es ↔ d.Fits start' ps es := by
    intro es
    match ps, es with
    | [], [] => exact Iff.rfl
    | [], _ :: _ => exact Iff.rfl
    | _ :: _, [] => exact Iff.rfl
    | p :: ps, e :: es =>
      refine and_congr_right fun he => and_congr_right fun _ => and_congr_left fun _ => ?_
      exact h p.relation e he
  exact exists_congr fun es => and_congr_left fun _ => hfits es

namespace Linked

/-- The elements that are tried to the left of an element are those to which it stands. -/
theorem mem_related (h : d.Linked) (hx : d.isElement x = true) :
    y ∈ d.related r x ↔ d.isElement y = true ∧ d.Stands r y x := by
  cases r with
  | descendant =>
    rw [related, ancestorElements, List.mem_filter, h.mem_ancestors, and_comm]
    rfl
  | child =>
    rw [related, parentElement?, Option.mem_toList, Option.filter_eq_some_iff,
      and_comm]
    rfl
  | adjacent =>
    rw [related, Option.mem_toList, h.previousElement?_eq_some hx]
    rfl
  | general =>
    rw [related, previousElements, List.mem_filter, previousSiblings, List.mem_reverse,
      h.mem_preceding, and_comm]
    rfl

theorem relatedToContext_iff (h : d.Linked) {context : NodeId} :
    d.relatedToContext context r x = true ↔ d.Stands r context x := by
  cases r with
  | descendant =>
    rw [relatedToContext, Bool.and_eq_true, bne_iff_ne, h.isAncestorOrSelf_iff, reaches_iff]
    constructor
    · exact fun hx => hx.2.resolve_left hx.1
    · refine fun hx => ⟨?_, .inr hx⟩
      rintro rfl
      exact h.forest.grounded.not_passes_self _ hx
  | child =>
    rw [relatedToContext, beq_iff_eq]
    rfl
  | adjacent =>
    rw [relatedToContext, beq_iff_eq, h.nextElement?_eq_some]
    rfl
  | general =>
    rw [relatedToContext, List.contains_iff_mem, h.mem_following]
    rfl

/-- Matching from right to left finds a chain just if there is one. -/
theorem chainEnds_iff (h : d.Linked) : ∀ {ps : List Part} {start : Combinator → NodeId → Bool}
    {x : NodeId}, d.isElement x = true →
    (chainEnds d start ps x = true ↔ d.EndsIn (fun r y => start r y = true) ps x)
  | [], start, x, _ => by
    rw [chainEnds]
    exact iff_of_false Bool.false_ne_true not_endsIn_nil
  | [p], start, x, hx => by
    rw [chainEnds, endsIn_singleton, List.isEmpty_nil, if_pos rfl, Bool.and_eq_true]
    exact ⟨fun hp => ⟨hx, hp⟩, fun hp => hp.2⟩
  | p :: q :: ps, start, x, hx => by
    rw [chainEnds, List.isEmpty_cons, if_neg Bool.false_ne_true, h.chainEnds_iff hx,
      endsIn_cons_cons]
    refine EndsIn.congr fun r z hz => ?_
    rw [anyRelated_eq, List.any_eq_true]
    refine exists_congr fun y => ?_
    rw [h.mem_related hz, Bool.and_eq_true, and_assoc]
    exact and_congr_right fun _ => and_comm.trans and_assoc

theorem someChainEnds_iff (h : d.Linked) (hx : d.isElement x = true) :
    ∀ {alternatives : List (List Part)}, someChainEnds d alternatives x = true ↔
      ∃ ps ∈ alternatives, d.EndsIn (fun _ _ => True) ps x
  | [] => by simp [someChainEnds]
  | ps :: alternatives => by
    rw [someChainEnds, Bool.or_eq_true, h.chainEnds_iff hx, h.someChainEnds_iff hx]
    simp

/-- What `:not` asks for: no chain, wherever it begins, ends in the element. -/
theorem not_holds_iff (h : d.Linked) (hx : d.isElement x = true) {alternatives : List Chain} :
    (Simple.not alternatives).holds d x = true ↔
      ¬ ∃ ps ∈ alternatives, d.EndsIn (fun _ _ => True) ps x := by
  rw [Simple.holds, Bool.not_eq_true', ← Bool.not_eq_true, h.someChainEnds_iff hx]

theorem accepts_iff (h : d.Linked) {context : NodeId} {chain : Chain}
    (hx : d.isElement x = true) :
    chain.accepts d context x = true ↔ d.Matches context chain x := by
  cases chain with
  | nil => rw [Chain.accepts, List.isEmpty_nil, if_pos rfl, beq_iff_eq]; rfl
  | cons p ps =>
    rw [Chain.accepts, List.isEmpty_cons, if_neg Bool.false_ne_true, h.chainEnds_iff hx]
    exact EndsIn.congr fun r z _ => h.relatedToContext_iff

end Linked

end Document

end MarkupTree
