import MarkupTree.Proofs.Document.Alike
import MarkupTree.Proofs.Selector.Mirrors
import MarkupTree.Proofs.Selector.Selection

/-!
# Selection respects equality

Two document nodes with equal trees have their elements at corresponding places. Whatever a selector
asks of an element, of what is at or below it, of its siblings and of the elements above it, has the
same answer at corresponding places, so the two selections correspond as well.
-/

namespace MarkupTree

theorem forall₂_flatMap {α β γ δ : Type} {r : α → β → Prop} {s : γ → δ → Prop} {f : α → List γ}
    {g : β → List δ} {l : List α} {l' : List β} (h : List.Forall₂ r l l')
    (hfg : ∀ a ∈ l, ∀ b, r a b → List.Forall₂ s (f a) (g b)) :
    List.Forall₂ s (l.flatMap f) (l'.flatMap g) := by
  induction h with
  | nil => exact .nil
  | @cons a b l l' hab h ih =>
    rw [List.flatMap_cons, List.flatMap_cons]
    exact List.rel_append (hfg a List.mem_cons_self b hab)
      (ih fun c hc => hfg c (List.mem_cons_of_mem a hc))

namespace Document

variable {d e : Document} {a b x y p c : NodeId}

/-- The elements below a node in document order. -/
def descendantElements (d : Document) (x : NodeId) : List NodeId :=
  (d.descendants x).filter d.isElement

theorem Linked.descendantElements_eq (h : d.Linked) (x : NodeId) :
    d.descendantElements x =
      (d.childElements x).flatMap fun c => c :: d.descendantElements c := by
  have hlist : ∀ xs : List NodeId, (∀ c ∈ xs, d.parent? c = some x) →
      (xs.flatMap fun c => c :: d.descendants c).filter d.isElement =
        (xs.filter d.isElement).flatMap fun c => c :: d.descendantElements c := by
    intro xs
    induction xs with
    | nil => exact fun _ => rfl
    | cons c xs ih =>
      intro hxs
      have hc := hxs c List.mem_cons_self
      rw [List.flatMap_cons, List.filter_append,
        ih fun c' hc' => hxs c' (List.mem_cons_of_mem c hc')]
      by_cases hel : d.isElement c = true
      · rw [List.filter_cons_of_pos hel, List.filter_cons_of_pos hel, List.flatMap_cons]
        rfl
      · have htext : d.isText c = true := not_imp_comm.1 (h.isElement_child hc) hel
        rw [List.filter_cons_of_neg hel, List.filter_cons_of_neg hel,
          h.descendants_of_isText htext]
        rfl
  rw [descendantElements, h.descendants_eq_flatMap, hlist _ fun c hc => h.mem_children.1 hc]
  rfl

/-- Going down from `a` to `x` and from `b` to `y` takes child elements with the same numbers. -/
inductive Corresponds (d : Document) (a : NodeId) (e : Document) (b : NodeId) :
    NodeId → NodeId → Prop
  | top : Corresponds d a e b a b
  | child {x y c c' : NodeId} {i : Nat} (h : Corresponds d a e b x y)
      (hc : (d.childElements x)[i]? = some c) (hc' : (e.childElements y)[i]? = some c') :
      Corresponds d a e b c c'

/-- Two document nodes with equal trees. -/
structure Twins (d : Document) (a : NodeId) (e : Document) (b : NodeId) : Prop where
  left : d.WellFormed
  right : e.WellFormed
  document : d.isDocument a = true
  equal : d.equal a e b = true

/-! ### The siblings of a child element -/

theorem parent?_of_childElements (h : d.Linked) {i : Nat}
    (hc : (d.childElements p)[i]? = some c) : d.parent? c = some p ∧ d.isElement c = true := by
  obtain ⟨hmem, hel⟩ := List.mem_filter.1 (List.mem_of_getElem? hc)
  exact ⟨h.mem_children.1 hmem, hel⟩

theorem siblings_of_childElements (h : d.Linked) {i : Nat}
    (hc : (d.childElements p)[i]? = some c) :
    d.previousElements c = ((d.childElements p).take i).reverse ∧
      d.followingElements c = (d.childElements p).drop (i + 1) := by
  obtain ⟨hp, hel⟩ := parent?_of_childElements h hc
  have hsplit : d.childElements p =
      (d.preceding c).filter d.isElement ++ c :: d.followingElements c := by
    rw [childElements, h.children_eq hp, List.filter_append, List.filter_cons_of_pos hel]
    rfl
  have hnd : (d.childElements p).Nodup := (h.forest.nodup p).filter _
  have hi : ((d.preceding c).filter d.isElement).length = i := by
    refine (List.getElem?_inj ?_ hnd).1 ?_
    · rw [hsplit, List.length_append, List.length_cons]
      omega
    · rw [hc, hsplit, List.getElem?_append_right (Nat.le_refl _), Nat.sub_self]
      rfl
  have hprev : d.previousElements c = ((d.preceding c).filter d.isElement).reverse := by
    rw [previousElements, previousSiblings, List.filter_reverse]
  rw [hprev, hsplit, ← hi]
  simp

namespace Twins

section

variable (t : Twins d a e b)
include t

theorem equal_of_corresponds (h : Corresponds d a e b x y) : d.equal x e y = true := by
  induction h with
  | top => exact t.equal
  | @child x y c c' i _ hc hc' ih =>
    have helements := (alike_of_equal t.left t.right ih).elements
    obtain ⟨hi, rfl⟩ := List.getElem?_eq_some_iff.1 hc
    obtain ⟨hi', rfl⟩ := List.getElem?_eq_some_iff.1 hc'
    exact helements.get hi hi'

theorem alike (h : Corresponds d a e b x y) : Alike d x e y :=
  alike_of_equal t.left t.right (t.equal_of_corresponds h)

theorem isElement_eq (h : Corresponds d a e b x y) : d.isElement x = e.isElement y := by
  rw [isElement, isElement, (t.alike h).kind?]

theorem isDocument_eq (h : Corresponds d a e b x y) : d.isDocument x = e.isDocument y := by
  rw [isDocument, isDocument, (t.alike h).kind?]

theorem parent?_left : d.parent? a = none := t.left.linked.document t.document

theorem parent?_right : e.parent? b = none :=
  t.right.linked.document (t.isDocument_eq .top ▸ t.document)

theorem forall₂_childElements (h : Corresponds d a e b x y) :
    List.Forall₂ (Corresponds d a e b) (d.childElements x) (e.childElements y) := by
  refine List.forall₂_iff_get.2 ⟨(t.alike h).elements.length_eq, fun i hi hi' => ?_⟩
  exact .child h (List.getElem?_eq_getElem hi) (List.getElem?_eq_getElem hi')

/-- At corresponding places both nodes have corresponding parents, or neither has one. -/
theorem parents (h : Corresponds d a e b x y) :
    x = a ∧ y = b ∨ ∃ p q, d.parent? x = some p ∧ e.parent? y = some q ∧
      Corresponds d a e b p q ∧ d.isElement x = true := by
  cases h with
  | top => exact .inl ⟨rfl, rfl⟩
  | child h hc hc' =>
    obtain ⟨hp, hel⟩ := parent?_of_childElements t.left.linked hc
    obtain ⟨hq, -⟩ := parent?_of_childElements t.right.linked hc'
    exact .inr ⟨_, _, hp, hq, h, hel⟩

theorem forall₂_siblings (h : Corresponds d a e b x y) :
    List.Forall₂ (Corresponds d a e b) (d.previousElements x) (e.previousElements y) ∧
      List.Forall₂ (Corresponds d a e b) (d.followingElements x) (e.followingElements y) := by
  cases h with
  | top =>
    simp only [previousElements, followingElements, previousSiblings,
      preceding_of_none t.parent?_left, preceding_of_none t.parent?_right,
      following_of_none t.parent?_left, following_of_none t.parent?_right]
    exact ⟨.nil, .nil⟩
  | @child p q _ _ i h hc hc' =>
    obtain ⟨hprev, hnext⟩ := siblings_of_childElements t.left.linked hc
    obtain ⟨hprev', hnext'⟩ := siblings_of_childElements t.right.linked hc'
    have hall := t.forall₂_childElements h
    rw [hprev, hprev', hnext, hnext']
    exact ⟨List.rel_reverse (List.forall₂_take i hall), List.forall₂_drop (i + 1) hall⟩

theorem forall₂_ancestors (h : Corresponds d a e b x y) :
    List.Forall₂ (Corresponds d a e b) (d.ancestors x) (e.ancestors y) := by
  induction h with
  | top =>
    rw [Linked.ancestors_of_none t.parent?_left, Linked.ancestors_of_none t.parent?_right]
    exact .nil
  | child h hc hc' ih =>
    rw [t.left.linked.ancestors_of_some (parent?_of_childElements t.left.linked hc).1,
      t.right.linked.ancestors_of_some (parent?_of_childElements t.right.linked hc').1]
    exact .cons h ih

theorem forall₂_parentElement? (h : Corresponds d a e b x y) :
    List.Forall₂ (Corresponds d a e b) (d.parentElement? x).toList (e.parentElement? y).toList := by
  rw [parentElement?, parentElement?]
  rcases t.parents h with ⟨rfl, rfl⟩ | ⟨p, q, hp, hq, hpq, -⟩
  · rw [t.parent?_left, t.parent?_right]
    exact .nil
  · have hel := t.isElement_eq hpq
    rw [hp, hq, Option.filter_some, Option.filter_some, hel]
    split
    · exact .cons hpq .nil
    · exact .nil

theorem any_isDocument_parent? (h : Corresponds d a e b x y) :
    (d.parent? x).any d.isDocument = (e.parent? y).any e.isDocument := by
  rcases t.parents h with ⟨rfl, rfl⟩ | ⟨p, q, hp, hq, hpq, -⟩
  · rw [t.parent?_left, t.parent?_right]
    rfl
  · rw [hp, hq]
    exact t.isDocument_eq hpq

/-- Corresponding places answer alike. -/
theorem mirrors : Mirrors d e (Corresponds d a e b) where
  name? h := (t.alike h).name?
  attribute? h := (t.alike h).attribute?
  textContent h := (t.alike h).textContent
  hollow h := (t.alike h).hollow
  root := t.any_isDocument_parent?
  previous h := (t.forall₂_siblings h).1
  following h := (t.forall₂_siblings h).2
  parent := t.forall₂_parentElement?
  ancestors h := forall₂_filter (t.forall₂_ancestors h) fun _ _ => t.isElement_eq

end

section

variable (t : Twins d a e b)
include t

/-! ### The starting nodes -/

theorem eq_left_iff (h : Corresponds d a e b x y) : x = a ↔ y = b := by
  have hdoc := t.isDocument_eq h
  have hb : e.isDocument b = true := t.isDocument_eq .top ▸ t.document
  rcases t.parents h with ⟨rfl, rfl⟩ | ⟨p, q, hp, hq, -, -⟩
  · exact iff_of_true rfl rfl
  · refine iff_of_false ?_ ?_
    · rintro rfl
      rw [t.parent?_left] at hp
      cases hp
    · rintro rfl
      rw [t.parent?_right] at hq
      cases hq

theorem reaches (h : Corresponds d a e b x y) :
    Reaches d.parent? x a ∧ Reaches e.parent? y b := by
  induction h with
  | top => exact ⟨.refl, .refl⟩
  | child _ hc hc' ih =>
    exact ⟨.step (parent?_of_childElements t.left.linked hc).1 ih.1,
      .step (parent?_of_childElements t.right.linked hc').1 ih.2⟩

theorem relatedToContext_eq (r : Combinator) (h : Corresponds d a e b x y) :
    d.relatedToContext a r x = e.relatedToContext b r y := by
  have htop := t.eq_left_iff h
  cases r with
  | descendant =>
    obtain ⟨hx, hy⟩ := t.reaches h
    have hne : (x != a) = (y != b) := by
      rw [Bool.eq_iff_iff, bne_iff_ne, bne_iff_ne]
      exact not_congr htop
    rw [relatedToContext, relatedToContext, t.left.linked.isAncestorOrSelf_iff.2 hx,
      t.right.linked.isAncestorOrSelf_iff.2 hy, hne]
  | child =>
    rw [relatedToContext, relatedToContext]
    rcases t.parents h with ⟨rfl, rfl⟩ | ⟨p, q, hp, hq, hpq, -⟩
    · rw [t.parent?_left, t.parent?_right]
      rfl
    · rw [hp, hq, Bool.eq_iff_iff, beq_iff_eq, beq_iff_eq, Option.some.injEq, Option.some.injEq,
        t.eq_left_iff hpq]
  | adjacent =>
    simp only [relatedToContext, nextElement?, followingElements,
      following_of_none t.parent?_left, following_of_none t.parent?_right]
    rfl
  | general =>
    simp only [relatedToContext, following_of_none t.parent?_left,
      following_of_none t.parent?_right]
    rfl

theorem accepts_eq (chain : Chain) (h : Corresponds d a e b x y) :
    chain.accepts d a x = chain.accepts e b y :=
  t.mirrors.accepts_eq (fun _ _ => t.eq_left_iff) (fun c _ _ => t.relatedToContext_eq c) chain h

/-! ### Whole selections -/

theorem forall₂_descendantElements (h : Corresponds d a e b x y) :
    List.Forall₂ (Corresponds d a e b) (d.descendantElements x) (e.descendantElements y) := by
  induction x using t.left.linked.down_induction generalizing y with
  | step x ih =>
    rw [t.left.linked.descendantElements_eq, t.right.linked.descendantElements_eq]
    refine forall₂_flatMap (t.forall₂_childElements h) fun c hc c' hcc => ?_
    exact .cons hcc (ih c (List.mem_filter.1 hc).1 hcc)

end

end Twins

/-- From a document node only elements below it are selected. -/
theorem select_of_isDocument (h : d.Linked) (ha : d.isDocument a = true)
    (alternatives : List Chain) : d.select alternatives a =
      (d.descendantElements a).filter fun x => alternatives.any (·.accepts d a x) := by
  have hlive : d.contains a = true := contains_of_kind? (isDocument_iff.1 ha)
  have hel : ¬ d.isElement a = true := fun hel => not_isDocument_of_isElement hel ha
  rw [select_eq_filter_elements h hlive, wholeTree, top_of_none (h.document ha),
    List.filter_cons_of_neg hel, descendantElements]

/-- Selecting from document nodes with equal trees selects elements at the same places, and the
elements selected are equal one by one. -/
theorem select_of_equal (hd : Reachable d) (he : Reachable e) (ha : d.isDocument a = true)
    (hb : e.isDocument b = true) (h : d.equal a e b = true) (s : Selector) :
    (d.descendantElements a).length = (e.descendantElements b).length ∧
      (∀ (i : Nat) (x y : NodeId), (d.descendantElements a)[i]? = some x →
        (e.descendantElements b)[i]? = some y → (x ∈ s.select d a ↔ y ∈ s.select e b)) ∧
      (s.select d a).length = (s.select e b).length ∧
      List.Forall₂ (fun x y => d.equal x e y = true) (s.select d a) (s.select e b) := by
  have t : Twins d a e b := ⟨wellFormed_of_reachable hd, wellFormed_of_reachable he, ha, h⟩
  have hall := t.forall₂_descendantElements .top
  have haccepts : ∀ x y, Corresponds d a e b x y → s.alternatives.any (·.accepts d a x) =
      s.alternatives.any (·.accepts e b y) := by
    intro x y hxy
    congr 1
    funext chain
    exact t.accepts_eq chain hxy
  have hselect := forall₂_filter hall haccepts
  rw [← select_of_isDocument t.left.linked ha, ← select_of_isDocument t.right.linked hb] at hselect
  refine ⟨hall.length_eq, fun i x y hx hy => ?_, hselect.length_eq,
    hselect.imp fun x y => t.equal_of_corresponds⟩
  obtain ⟨hi, rfl⟩ := List.getElem?_eq_some_iff.1 hx
  obtain ⟨hi', rfl⟩ := List.getElem?_eq_some_iff.1 hy
  have hxy : Corresponds d a e b (d.descendantElements a)[i] (e.descendantElements b)[i] :=
    hall.get hi hi'
  rw [Selector.select, Selector.select, select_of_isDocument t.left.linked ha,
    select_of_isDocument t.right.linked hb, List.mem_filter, List.mem_filter, haccepts _ _ hxy]
  exact and_congr_left fun _ => iff_of_true (List.getElem_mem hi) (List.getElem_mem hi')

/-- The order of attributes plays no part in what is selected. -/
theorem select_of_equal_reordered :
    ((⟨"[x]", [[⟨.descendant, none, [.hasAttribute ⟨"x", .present, ""⟩]⟩]]⟩ : Selector).select
        ((Command.append .root ⟨1, 0⟩).after
          (new.createElement "p" [⟨"x", "1"⟩, ⟨"y", "2"⟩]).1) .root).length =
      ((⟨"[x]", [[⟨.descendant, none, [.hasAttribute ⟨"x", .present, ""⟩]⟩]]⟩ : Selector).select
        ((Command.append .root ⟨1, 0⟩).after
          (new.createElement "p" [⟨"y", "2"⟩, ⟨"x", "1"⟩]).1) .root).length :=
  (select_of_equal (.edit (.createElement .new "p" _) _) (.edit (.createElement .new "p" _) _)
    (by decide +kernel) (by decide +kernel) (by decide +kernel) _).2.2.1

end Document

end MarkupTree
