import MarkupTree.Selector.Match
import Mathlib.Data.List.Forall2

/-!
# Nodes that answer alike

A relation between the nodes of two documents mirrors the one in the other if related nodes hold the
same, as far as a selector can see, and the elements around them that a selector goes to are related
again. Then every selector has the same answer at related nodes, however far it goes.
-/

namespace MarkupTree

section

variable {α β : Type} {r : α → β → Prop} {f : α → Bool} {g : β → Bool} {l : List α} {l' : List β}

theorem any_eq_of_forall₂ (h : List.Forall₂ r l l') (hfg : ∀ a b, r a b → f a = g b) :
    l.any f = l'.any g := by
  induction h with
  | nil => rfl
  | cons hab _ ih => rw [List.any_cons, List.any_cons, hfg _ _ hab, ih]

theorem forall₂_filter (h : List.Forall₂ r l l') (hfg : ∀ a b, r a b → f a = g b) :
    List.Forall₂ r (l.filter f) (l'.filter g) :=
  List.rel_filter (fun a b hab => iff_of_eq (congrArg (· = true) (hfg a b hab))) h

theorem forall₂_head? (h : List.Forall₂ r l l') :
    List.Forall₂ r l.head?.toList l'.head?.toList := by
  cases h with
  | nil => exact .nil
  | cons hab _ => exact .cons hab .nil

theorem isNone_head?_of_forall₂ (h : List.Forall₂ r l l') :
    l.head?.isNone = l'.head?.isNone := by cases h <;> rfl

theorem isEmpty_of_forall₂ (h : List.Forall₂ r l l') : l.isEmpty = l'.isEmpty := by
  cases h <;> rfl

end

namespace Document

variable {d e : Document} {r : NodeId → NodeId → Prop} {x y : NodeId}

/-- What related nodes have in common. -/
structure Mirrors (d e : Document) (r : NodeId → NodeId → Prop) : Prop where
  name? : ∀ {x y}, r x y → d.name? x = e.name? y
  attribute? : ∀ {x y}, r x y → ∀ name, d.attribute? x name = e.attribute? y name
  textContent : ∀ {x y}, r x y → d.textContent x = e.textContent y
  hollow : ∀ {x y}, r x y → ((d.children x).all fun c => d.text? c == some "") =
    (e.children y).all fun c => e.text? c == some ""
  root : ∀ {x y}, r x y → (d.parent? x).any d.isDocument = (e.parent? y).any e.isDocument
  previous : ∀ {x y}, r x y → List.Forall₂ r (d.previousElements x) (e.previousElements y)
  following : ∀ {x y}, r x y → List.Forall₂ r (d.followingElements x) (e.followingElements y)
  parent : ∀ {x y}, r x y →
    List.Forall₂ r (d.parentElement? x).toList (e.parentElement? y).toList
  ancestors : ∀ {x y}, r x y → List.Forall₂ r (d.ancestorElements x) (e.ancestorElements y)

namespace Mirrors

section

variable (m : Mirrors d e r)
include m

/-- The elements that are tried to the left of an element are related. -/
theorem forall₂_related (h : r x y) (c : Combinator) :
    List.Forall₂ r (d.related c x) (e.related c y) := by
  cases c with
  | descendant => exact m.ancestors h
  | child => exact m.parent h
  | adjacent => exact forall₂_head? (m.previous h)
  | general => exact m.previous h

theorem anyRelated_eq {q q' : NodeId → Bool} (hq : ∀ x y, r x y → q x = q' y) (h : r x y)
    (c : Combinator) : d.anyRelated c x q = e.anyRelated c y q' := by
  rw [Document.anyRelated_eq, Document.anyRelated_eq]
  exact any_eq_of_forall₂ (m.forall₂_related h c) hq

theorem forall₂_sameName (h : r x y) :
    List.Forall₂ r (d.sameNameBefore x) (e.sameNameBefore y) ∧
      List.Forall₂ r (d.sameNameAfter x) (e.sameNameAfter y) := by
  have hname : ∀ z z', r z z' → (d.name? z == d.name? x) = (e.name? z' == e.name? y) := by
    intro z z' hz
    rw [m.name? hz, m.name? h]
  exact ⟨forall₂_filter (m.previous h) hname, forall₂_filter (m.following h) hname⟩

end

mutual

/-- A simple selector has the same answer at related nodes. -/
theorem holds_eq (m : Mirrors d e r) (s : Simple) {x y : NodeId} (h : r x y) :
    s.holds d x = s.holds e y := by
  have hprev := m.previous h
  have hnext := m.following h
  obtain ⟨hbefore, hafter⟩ := m.forall₂_sameName h
  cases s with
  | hasClass token => simp only [Simple.holds, hasClass, m.attribute? h]
  | hasId id => simp only [Simple.holds, m.attribute? h]
  | hasAttribute test => simp only [Simple.holds, m.attribute? h]
  | firstChild => exact isNone_head?_of_forall₂ hprev
  | lastChild => exact isNone_head?_of_forall₂ hnext
  | onlyChild =>
    exact congrArg₂ and (isNone_head?_of_forall₂ hprev) (isNone_head?_of_forall₂ hnext)
  | firstOfType => exact isEmpty_of_forall₂ hbefore
  | lastOfType => exact isEmpty_of_forall₂ hafter
  | onlyOfType => exact congrArg₂ and (isEmpty_of_forall₂ hbefore) (isEmpty_of_forall₂ hafter)
  | nthChild f => simp only [Simple.holds, elementPlace, hprev.length_eq]
  | nthLastChild f => simp only [Simple.holds, hnext.length_eq]
  | nthOfType f => simp only [Simple.holds, hbefore.length_eq]
  | nthLastOfType f => simp only [Simple.holds, hafter.length_eq]
  | empty => exact m.hollow h
  | root => exact m.root h
  | not alternatives => simp only [Simple.holds, m.someChainEnds_eq alternatives h]
  | contains text => simp only [Simple.holds, m.textContent h]

theorem partHolds_eq (m : Mirrors d e r) (p : Part) {x y : NodeId} (h : r x y) :
    p.holds d x = p.holds e y := by
  cases p with
  | mk c tag? simples => simp only [Part.holds, m.name? h, m.allHold_eq simples h]

theorem allHold_eq (m : Mirrors d e r) (simples : List Simple) {x y : NodeId} (h : r x y) :
    allHold d simples x = allHold e simples y := by
  cases simples with
  | nil => rfl
  | cons s rest => simp only [allHold, m.holds_eq s h, m.allHold_eq rest h]

/-- So has a chain whose first element is asked the same in both documents. -/
theorem chainEnds_eq (m : Mirrors d e r) (ps : List Part)
    {start start' : Combinator → NodeId → Bool}
    (hstart : ∀ c x y, r x y → start c x = start' c y) {x y : NodeId} (h : r x y) :
    chainEnds d start ps x = chainEnds e start' ps y := by
  cases ps with
  | nil => rfl
  | cons p rest =>
    rw [chainEnds, chainEnds, m.partHolds_eq p h, hstart _ x y h]
    refine ite_congr rfl (fun _ => rfl) fun _ => ?_
    refine m.chainEnds_eq rest (fun c x y hxy => ?_) h
    refine m.anyRelated_eq (fun z z' hz => ?_) hxy c
    rw [m.partHolds_eq p hz, hstart _ z z' hz]

theorem someChainEnds_eq (m : Mirrors d e r) (alternatives : List (List Part)) {x y : NodeId}
    (h : r x y) : someChainEnds d alternatives x = someChainEnds e alternatives y := by
  cases alternatives with
  | nil => rfl
  | cons ps rest =>
    rw [someChainEnds, someChainEnds, m.someChainEnds_eq rest h,
      m.chainEnds_eq ps (fun _ _ _ _ => rfl) h]

end

/-- Relative to nodes that the chains begin from alike, related nodes are accepted alike. -/
theorem accepts_eq (m : Mirrors d e r) {a b : NodeId} (htop : ∀ x y, r x y → (x = a ↔ y = b))
    (hstart : ∀ c x y, r x y → d.relatedToContext a c x = e.relatedToContext b c y) (chain : Chain)
    (h : r x y) : chain.accepts d a x = chain.accepts e b y := by
  rw [Chain.accepts, Chain.accepts]
  refine ite_congr rfl (fun _ => ?_) fun _ => m.chainEnds_eq chain hstart h
  rw [Bool.eq_iff_iff, beq_iff_eq, beq_iff_eq, htop x y h]

end Mirrors

end Document

end MarkupTree
