import MarkupTree.Proofs.Selector.Selection

/-!
# The scope of a selection

A chain that leads down from a node stays below the node, and what its parts ask of an element is
found at the element, among its siblings and below it. So the selection depends on the tree of the
node alone, unless `:not` asks for chains: these begin anywhere.
-/

namespace MarkupTree

namespace Selector

mutual

/-- Inside `:not` nothing is asked of other elements than the one that is tried. -/
def SimpleFlat : Simple → Prop
  | .not alternatives => ChainsFlat alternatives
  | _ => True

def PartFlat : Part → Prop
  | ⟨_, _, simples⟩ => SimplesFlat simples

def SimplesFlat : List Simple → Prop
  | [] => True
  | simple :: simples => SimpleFlat simple ∧ SimplesFlat simples

def PartsFlat : List Part → Prop
  | [] => True
  | part :: parts => PartFlat part ∧ PartsFlat parts

/-- Every chain is one part. -/
def ChainsFlat : List (List Part) → Prop
  | [] => True
  | chain :: chains => (chain.length = 1 ∧ PartsFlat chain) ∧ ChainsFlat chains

end

/-- Every alternative leads down, and inside `:not` there are single parts only. -/
def Scoped (alternatives : List Chain) : Prop :=
  ∀ chain ∈ alternatives,
    (chain.leading? = some .descendant ∨ chain.leading? = some .child) ∧ PartsFlat chain

end Selector

namespace Document

open Selector

variable {d e : Document} {a x y p : NodeId} {r : Combinator} {alternatives : List Chain}

/-- At `a` and below it the second document has the nodes of the first, with the same contents and
children. -/
def SameTree (d e : Document) (a : NodeId) : Prop :=
  ∀ x ∈ a :: d.descendants a, e.content? x = d.content? x ∧ e.children x = d.children x

/-- Two documents that share the tree of a node. -/
structure Shared (d e : Document) (a : NodeId) : Prop where
  left : d.Linked
  right : e.Linked
  same : SameTree d e a

namespace Shared

section

variable (t : Shared d e a)
include t

theorem descendants_eq : e.descendants a = d.descendants a :=
  t.left.descendants_congr t.right fun x hx => (t.same x hx).2

theorem symm : Shared e d a := by
  refine ⟨t.right, t.left, fun x hx => ?_⟩
  rw [t.descendants_eq] at hx
  exact ⟨(t.same x hx).1.symm, (t.same x hx).2.symm⟩

theorem below (hx : x ∈ a :: d.descendants a) : Shared d e x := by
  refine ⟨t.left, t.right, fun y hy => t.same y ?_⟩
  rw [t.left.mem_cons_descendants] at hx hy ⊢
  exact hy.trans hx

theorem mem_of_mem_children (hp : p ∈ a :: d.descendants a) (hx : x ∈ d.children p) :
    x ∈ d.descendants a :=
  t.left.mem_descendants.2
    (passes_iff.2 ⟨p, t.left.mem_children.1 hx, t.left.mem_cons_descendants.1 hp⟩)

/-- A node below `a` has its parent and its siblings in the shared tree. -/
theorem links_eq (hx : x ∈ d.descendants a) : e.parent? x = d.parent? x ∧
    e.preceding x = d.preceding x ∧ e.following x = d.following x := by
  obtain ⟨p, hp, hpa⟩ := passes_iff.1 (t.left.mem_descendants.1 hx)
  have hchildren := (t.same p (t.left.mem_cons_descendants.2 hpa)).2
  rw [t.left.children_eq hp] at hchildren
  rw [hp]
  exact t.right.children_eq_iff.1 hchildren

theorem mem_of_mem_siblings (hx : x ∈ d.descendants a)
    (hy : y ∈ d.preceding x ∨ y ∈ d.following x) : y ∈ d.descendants a := by
  rw [t.left.mem_descendants] at hx ⊢
  rcases hy with hy | hy
  · exact (t.left.passes_iff_of_later (t.left.mem_preceding.1 hy)).2 hx
  · exact (t.left.passes_iff_of_later (t.left.mem_following.1 hy)).1 hx

/-! ### What is found at a node -/

theorem isElement_eq (hx : x ∈ a :: d.descendants a) : e.isElement x = d.isElement x := by
  rw [isElement, isElement, kind?, kind?, (t.same x hx).1]

theorem name?_eq (hx : x ∈ a :: d.descendants a) : e.name? x = d.name? x := by
  rw [name?, name?, (t.same x hx).1]

theorem text?_eq (hx : x ∈ a :: d.descendants a) : e.text? x = d.text? x := by
  rw [text?, text?, (t.same x hx).1]

theorem attribute?_eq (hx : x ∈ a :: d.descendants a) (name : String) :
    e.attribute? x name = d.attribute? x name := by
  rw [attribute?, attribute?, attributes, attributes, (t.same x hx).1]

theorem textContent_eq (hx : x ∈ a :: d.descendants a) : e.textContent x = d.textContent x := by
  have htexts : (d.descendants x).filterMap e.text? = (d.descendants x).filterMap d.text? :=
    List.filterMap_congr fun y hy => (t.below hx).text?_eq (List.mem_cons_of_mem x hy)
  rw [textContent, textContent, texts, texts, t.text?_eq hx, (t.below hx).descendants_eq, htexts]

theorem hollow_eq (hx : x ∈ a :: d.descendants a) :
    ((e.children x).all fun c => e.text? c == some "") =
      (d.children x).all fun c => d.text? c == some "" := by
  rw [(t.same x hx).2, Bool.eq_iff_iff, List.all_eq_true, List.all_eq_true]
  refine forall₂_congr fun c hc => ?_
  rw [t.text?_eq (List.mem_cons_of_mem a (t.mem_of_mem_children hx hc))]

theorem elements_eq (hx : x ∈ d.descendants a) : e.previousElements x = d.previousElements x ∧
    e.followingElements x = d.followingElements x := by
  obtain ⟨-, hpreceding, hfollowing⟩ := t.links_eq hx
  have hel : ∀ y, y ∈ d.preceding x ∨ y ∈ d.following x → e.isElement y = d.isElement y :=
    fun y hy => t.isElement_eq (List.mem_cons_of_mem a (t.mem_of_mem_siblings hx hy))
  rw [previousElements, previousElements, previousSiblings, previousSiblings, followingElements,
    followingElements, hpreceding, hfollowing]
  exact ⟨List.filter_congr fun y hy => hel y (.inl (List.mem_reverse.1 hy)),
    List.filter_congr fun y hy => hel y (.inr hy)⟩

theorem sameName_eq (hx : x ∈ d.descendants a) : e.sameNameBefore x = d.sameNameBefore x ∧
    e.sameNameAfter x = d.sameNameAfter x := by
  have hname : ∀ y, y ∈ d.preceding x ∨ y ∈ d.following x →
      (e.name? y == e.name? x) = (d.name? y == d.name? x) := by
    intro y hy
    rw [t.name?_eq (List.mem_cons_of_mem a (t.mem_of_mem_siblings hx hy)),
      t.name?_eq (List.mem_cons_of_mem a hx)]
  obtain ⟨hprevious, hnext⟩ := t.elements_eq hx
  rw [sameNameBefore, sameNameBefore, sameNameAfter, sameNameAfter, hprevious, hnext]
  refine ⟨List.filter_congr fun y hy => hname y (.inl ?_),
    List.filter_congr fun y hy => hname y (.inr (List.mem_of_mem_filter hy))⟩
  exact List.mem_reverse.1 (List.mem_of_mem_filter hy)

theorem root_eq (hx : x ∈ d.descendants a) :
    (e.parent? x).any e.isDocument = (d.parent? x).any d.isDocument := by
  obtain ⟨p, hp, hpa⟩ := passes_iff.1 (t.left.mem_descendants.1 hx)
  rw [(t.links_eq hx).1, hp, Option.any_some, Option.any_some, isDocument, isDocument, kind?, kind?,
    (t.same p (t.left.mem_cons_descendants.2 hpa)).1]

end

/-! ### What selectors ask -/

mutual

/-- A flat simple selector has the same answer in both documents. -/
theorem holds_eq (t : Shared d e a) (s : Simple) (hs : SimpleFlat s) {x : NodeId}
    (hx : x ∈ d.descendants a) : s.holds e x = s.holds d x := by
  have hx' := List.mem_cons_of_mem a hx
  obtain ⟨hprevious, hnext⟩ := t.elements_eq hx
  obtain ⟨hbefore, hafter⟩ := t.sameName_eq hx
  cases s with
  | hasClass => simp only [Simple.holds, hasClass, t.attribute?_eq hx']
  | hasId | hasAttribute => simp only [Simple.holds, t.attribute?_eq hx']
  | firstChild | lastChild | onlyChild | nthChild | nthLastChild =>
    simp only [Simple.holds, previousElement?, nextElement?, elementPlace, hprevious, hnext]
  | firstOfType | lastOfType | onlyOfType | nthOfType | nthLastOfType =>
    simp only [Simple.holds, hbefore, hafter]
  | empty => exact t.hollow_eq hx'
  | root => exact t.root_eq hx
  -- With one part to a chain the start is not looked for among other elements.
  | not alternatives => simp only [Simple.holds, t.someChainEnds_eq alternatives hs hx]
  | contains => simp only [Simple.holds, t.textContent_eq hx']

theorem partHolds_eq (t : Shared d e a) (p : Part) (hp : PartFlat p) {x : NodeId}
    (hx : x ∈ d.descendants a) : p.holds e x = p.holds d x := by
  cases p with
  | mk r tag? simples =>
    simp only [Part.holds, t.name?_eq (List.mem_cons_of_mem a hx), t.allHold_eq simples hp hx]

theorem allHold_eq (t : Shared d e a) (simples : List Simple) (hs : SimplesFlat simples)
    {x : NodeId} (hx : x ∈ d.descendants a) : allHold e simples x = allHold d simples x := by
  cases simples with
  | nil => rfl
  | cons s rest => simp only [allHold, t.holds_eq s hs.1 hx, t.allHold_eq rest hs.2 hx]

theorem chainEnds_eq (t : Shared d e a) (ps : List Part) (hps : ps.length = 1 ∧ PartsFlat ps)
    {x : NodeId} (hx : x ∈ d.descendants a) :
    chainEnds e (fun _ _ => true) ps x = chainEnds d (fun _ _ => true) ps x := by
  cases ps with
  | nil => rfl
  | cons p rest =>
    obtain rfl : rest = [] := List.length_eq_zero_iff.1 (Nat.succ.inj hps.1)
    simp only [chainEnds, t.partHolds_eq p hps.2.1 hx]

theorem someChainEnds_eq (t : Shared d e a) (alternatives : List (List Part))
    (h : ChainsFlat alternatives) {x : NodeId} (hx : x ∈ d.descendants a) :
    someChainEnds e alternatives x = someChainEnds d alternatives x := by
  cases alternatives with
  | nil => rfl
  | cons ps rest =>
    simp only [someChainEnds, t.chainEnds_eq ps h.1 hx, t.someChainEnds_eq rest h.2 hx]

end

/-! ### Chains -/

section

variable (t : Shared d e a)
include t

/-- From below `a` every step of a chain stays below it, and from `a` itself a step down does. -/
theorem mem_of_stands (hx : x ∈ a :: d.descendants a)
    (hr : x ∈ d.descendants a ∨ r = .descendant ∨ r = .child) (hy : d.Stands r x y) :
    y ∈ d.descendants a := by
  have hxa := t.left.mem_cons_descendants.1 hx
  rw [t.left.mem_descendants]
  rcases hr with hx | rfl | rfl
  · exact t.left.passes_of_stands (t.left.mem_descendants.1 hx) hy
  · exact Relation.TransGen.trans_left hy hxa
  · exact passes_iff.2 ⟨x, hy, hxa⟩

theorem stands_iff (hx : x ∈ a :: d.descendants a)
    (hr : x ∈ d.descendants a ∨ r = .descendant ∨ r = .child) :
    e.Stands r x y ↔ d.Stands r x y := by
  cases r with
  | descendant =>
    rw [Stands, Stands, ← t.left.mem_descendants, ← t.right.mem_descendants,
      (t.below hx).descendants_eq]
  | child => rw [Stands, Stands, ← t.left.mem_children, ← t.right.mem_children, (t.same x hx).2]
  | adjacent =>
    have hx : x ∈ d.descendants a := hr.resolve_right (by simp)
    rw [Stands, Stands, ← t.left.nextElement?_eq_some, ← t.right.nextElement?_eq_some,
      nextElement?, nextElement?, (t.elements_eq hx).2]
  | general =>
    have hx : x ∈ d.descendants a := hr.resolve_right (by simp)
    rw [Stands, Stands, ← t.left.mem_following, ← t.right.mem_following, (t.links_eq hx).2.2]

end

/-- A chain that is found in one document is found in the other. -/
theorem fits (t : Shared d e a) : ∀ {ps : List Part} {es : List NodeId} {x : NodeId},
    x ∈ a :: d.descendants a → PartsFlat ps →
    (x ∈ d.descendants a ∨ ∀ p ∈ ps.head?, p.relation = .descendant ∨ p.relation = .child) →
    d.Fits (fun r y => d.Stands r x y) ps es → e.Fits (fun r y => e.Stands r x y) ps es
  | [], [], _, _, _, _, _ => trivial
  | p :: ps, y :: es, x, hx, hflat, hlead, ⟨hel, hp, hr, hes⟩ => by
    -- Only the first step can begin at `a`, whose siblings are not in the shared tree.
    have hlead := hlead.imp_right fun hlead => hlead p rfl
    have hy := t.mem_of_stands hx hlead hr
    have hy' := List.mem_cons_of_mem a hy
    refine ⟨?_, ?_, (t.stands_iff hx hlead).2 hr, t.fits hy' hflat.2 (.inl hy) hes⟩
    · rw [t.isElement_eq hy']
      exact hel
    · rw [t.partHolds_eq p hflat.1 hy]
      exact hp

theorem matches_of_scoped (t : Shared d e a) {chain : Chain}
    (hlead : chain.leading? = some .descendant ∨ chain.leading? = some .child)
    (hflat : PartsFlat chain) (h : d.Matches a chain x) : e.Matches a chain x := by
  cases chain with
  | nil => exact h
  | cons p ps =>
    obtain ⟨es, hes, hlast⟩ := h
    refine ⟨es, t.fits List.mem_cons_self hflat (.inr ?_) hes, hlast⟩
    rintro _ ⟨⟩
    exact hlead.imp Option.some.inj Option.some.inj

end Shared

/-- A selection that leads down selects below the node. -/
theorem select_eq_of_scoped (h : d.Linked) (hscoped : Scoped alternatives) :
    d.select alternatives a = (d.descendants a).filter fun x =>
      d.isElement x && alternatives.any (·.accepts d a x) := by
  by_cases ha : d.contains a = true
  · have hsub : (d.descendants a).Sublist (d.wholeTree a) :=
      (List.sublist_cons_self a _).trans (h.sublist_of_reaches (h.reaches_top a))
    rw [select_eq h ha]
    refine (filter_eq_of_sublist hsub (h.nodup_wholeTree a) fun x _ hx => ?_).symm
    obtain ⟨-, chain, hchain, hmatches⟩ := (selected_iff h).2 hx
    have hlead := (hscoped chain hchain).1
    cases chain with
    | nil => rcases hlead with hlead | hlead <;> cases hlead
    | cons p ps =>
      have hdown : p.relation = .descendant ∨ p.relation = .child :=
        hlead.imp Option.some.inj Option.some.inj
      rcases hmatches.reached h with ⟨-, hbelow⟩ | ⟨hbeside, -⟩
      · exact h.mem_descendants.2 hbelow
      · rcases hbeside with hbeside | hbeside <;> simp [hbeside] at hdown
  · rw [select, if_neg ha, h.descendants_eq_flatMap, children_of_stale ha]
    rfl

/-- What is selected from a node does not depend on what stands above it or beside it, if the
selector leads down and `:not` asks for single elements. -/
theorem select_eq_of_sameTree (hd : Reachable d) (he : Reachable e) (h : SameTree d e a)
    (x : Selector) (hx : Scoped x.alternatives) : x.select d a = x.select e a := by
  have t : Shared d e a :=
    ⟨(wellFormed_of_reachable hd).linked, (wellFormed_of_reachable he).linked, h⟩
  rw [Selector.select, Selector.select, select_eq_of_scoped t.left hx,
    select_eq_of_scoped t.right hx, t.descendants_eq]
  refine List.filter_congr fun y hy => ?_
  rw [Bool.eq_iff_iff, ← selected_iff t.left, ← selected_iff t.right, Selected, Selected,
    t.isElement_eq (List.mem_cons_of_mem a hy)]
  refine and_congr_right fun _ => exists_congr fun chain => and_congr_right fun hchain => ?_
  obtain ⟨hlead, hflat⟩ := hx chain hchain
  exact ⟨t.matches_of_scoped hlead hflat, t.symm.matches_of_scoped hlead hflat⟩

/-- A node that is taken out of its parent answers as it did there. -/
theorem select_eq_of_sameTree_detached : ∃ (d e : Document) (x : Selector),
    x.source = ">p:not(.c) b" ∧ d.parent? ⟨2, 0⟩ = some ⟨1, 0⟩ ∧ e.parent? ⟨2, 0⟩ = none ∧
      x.select d ⟨2, 0⟩ = [⟨4, 0⟩] ∧ x.select d ⟨2, 0⟩ = x.select e ⟨2, 0⟩ := by
  obtain ⟨d, x, hd, hsource, hscoped, hsame, hparent, hparent', hselect⟩ :
      ∃ (d : Document) (x : Selector), Reachable d ∧ x.source = ">p:not(.c) b" ∧
        Scoped x.alternatives ∧ SameTree d ((Command.detach ⟨2, 0⟩).after d) ⟨2, 0⟩ ∧
        d.parent? ⟨2, 0⟩ = some ⟨1, 0⟩ ∧
        ((Command.detach ⟨2, 0⟩).after d).parent? ⟨2, 0⟩ = none ∧
        x.select d ⟨2, 0⟩ = [⟨4, 0⟩] := by
    refine ⟨_, ⟨">p:not(.c) b", [[⟨.child, some "p", [.not [[⟨.descendant, none,
        [.hasClass "c"]⟩]]]⟩, ⟨.descendant, some "b", []⟩]]⟩,
      @Reachable.ofSignals .default [.startTag "a" [], .startTag "div" [], .startTag "p" [],
        .startTag "b" [], .endTag "b", .endTag "p", .endTag "div", .endTag "a"] _ rfl,
      rfl, ?_, ?_, ?_, ?_, ?_⟩
    · intro chain hchain
      rw [List.mem_singleton.1 hchain]
      simp [PartsFlat, PartFlat, SimplesFlat, SimpleFlat, ChainsFlat, Chain.leading?, Part.relation]
    · unfold SameTree
      decide +kernel
    · decide +kernel
    · decide +kernel
    · decide +kernel
  exact ⟨d, _, x, hsource, hparent, hparent', hselect,
    select_eq_of_sameTree hd (.edit hd _) hsame x hscoped⟩

end Document

end MarkupTree
