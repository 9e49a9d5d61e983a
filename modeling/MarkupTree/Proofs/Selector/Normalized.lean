import MarkupTree.Proofs.Document.Normalized
import MarkupTree.Proofs.Selector.Correspondence

/-!
# Selections do not see how texts are split

Normalizing a node moves no element and no document node, and each of them is equal to what it was.
So it mirrors itself, and every selection gives what it gave.
-/

namespace MarkupTree.Document

variable {d e : Document} {n x p context : NodeId} {runs : List (List NodeId)}
  {down : NodeId → List NodeId}

/-- What stays of runs are the nodes of the runs, as far as nodes are concerned that are no
texts. -/
theorem filter_filterMap_keptOf? {q : NodeId → Bool} (hq : ∀ x, d.isText x = true → q x = false)
    (hruns : ∀ run ∈ runs, d.IsRun run) :
    (runs.filterMap d.keptOf?).filter q = runs.flatten.filter q := by
  induction runs with
  | nil => rfl
  | cons run runs ih =>
    have hrest := ih fun r hr => hruns r (List.mem_cons_of_mem run hr)
    rw [List.flatten_cons, List.filter_append, ← hrest]
    cases hruns run List.mem_cons_self with
    | @other x hx =>
      rw [List.filterMap_cons_some (keptOf?_other hx), ← List.singleton_append, List.filter_append]
    | texts _ hall =>
      have hnone : run.filter q = [] :=
        List.filter_eq_nil_iff.2 fun x hx => ne_true_of_eq_false (hq x (hall x hx))
      rw [hnone, List.nil_append]
      cases hk : d.keptOf? run with
      | none => rw [List.filterMap_cons_none hk]
      | some k =>
        rw [List.filterMap_cons_some hk,
          List.filter_cons_of_neg (ne_true_of_eq_false (hq k (hall k (keptOf?_mem hk))))]

/-- A text that is not lost is still a text. -/
theorem Merged.isText_of_contains (h : Merged d runs down e) (hruns : ∀ run ∈ runs, d.IsRun run)
    (hx : d.isText x = true) (hlive : e.contains x = true) : e.isText x = true := by
  by_cases hmem : x ∈ runs.flatten
  · obtain ⟨run, hrun, hxrun⟩ := List.mem_flatten.1 hmem
    have hk := keptOf?_of_not_mem_lost hrun (hruns run hrun) hxrun ((h.contains_iff x).1 hlive).2
    exact isText_of_text? (text?_eq_some.2 (h.kept run hrun x hx hk))
  · rw [h.isText_eq (.inr hmem)]
    exact hx

theorem isRun_of_mem_runsBelow {run : List NodeId} (h : run ∈ d.runsBelow n) : d.IsRun run := by
  obtain ⟨c, -, hrun⟩ := List.mem_flatMap.1 h
  exact isRun_of_mem hrun

/-- The document before and after a node has been normalized. -/
structure Tidied (d e : Document) (n : NodeId) : Prop where
  left : d.WellFormed
  right : e.WellFormed
  normalized : d.normalize n = .ok e

namespace Tidied

variable (t : Tidied d e n)
include t

theorem merged : Merged d (d.runsBelow n)
    (fun c => if c ∈ n :: d.descendants n then d.mergedChildren c else d.children c) e :=
  normalize_merged t.left t.normalized

theorem alike (hlive : d.contains x = true) (hx : ¬ d.isText x = true) : Alike d x e x :=
  alike_of_equal t.left t.right (normalize_equal t.left t.normalized t.right hlive hx)

theorem parent?_eq (hx : ¬ d.isText x = true) : e.parent? x = d.parent? x :=
  t.merged.parent? x fun hlost => hx (isText_of_mem_lost hlost)

theorem kind?_eq (hx : ¬ d.isText x = true) : e.kind? x = d.kind? x := by
  rw [kind?, kind?, t.merged.other x (.inl hx)]

theorem isElement_eq (x : NodeId) : e.isElement x = d.isElement x := by
  by_cases hx : d.isText x = true
  · have hd : ¬ d.isElement x = true := fun hel => not_isText_of_isElement hel hx
    have he : ¬ e.isElement x = true := fun hel => not_isText_of_isElement hel
      (t.merged.isText_of_contains (fun _ => isRun_of_mem_runsBelow) hx (contains_of_isElement hel))
    rw [Bool.eq_false_iff.2 hd, Bool.eq_false_iff.2 he]
  · rw [isElement, isElement, t.kind?_eq hx]

/-! ### The elements around a node -/

theorem childElements_eq (x : NodeId) : e.childElements x = d.childElements x := by
  have htext : ∀ y, d.isText y = true → d.isElement y = false := fun y hy =>
    Bool.eq_false_iff.2 fun hel => not_isText_of_isElement hel hy
  have hchildren := congrFun t.merged.children x
  rw [childElements, childElements, hchildren, funext t.isElement_eq]
  rcases t.left.linked.mergedChildren_or n x with ⟨hmerged, -⟩ | ⟨hsame, -⟩
  · rw [hmerged, mergedChildren, filter_filterMap_keptOf? htext fun _ => isRun_of_mem,
      flatten_textRuns]
  · rw [hsame]

theorem siblings_eq (hx : ¬ d.isText x = true) :
    e.previousElements x = d.previousElements x ∧
      e.followingElements x = d.followingElements x := by
  have hup := t.parent?_eq hx
  cases hp : d.parent? x with
  | none =>
    rw [hp] at hup
    simp only [previousElements, followingElements, previousSiblings, preceding_of_none hup,
      preceding_of_none hp, following_of_none hup, following_of_none hp]
    exact ⟨rfl, rfl⟩
  | some p =>
    -- The child elements of the parent are what they were, so `x` has its place among them.
    have hmem : x ∈ d.childElements p :=
      List.mem_filter.2 ⟨t.left.linked.mem_children.2 hp, t.left.linked.isElement_child hp hx⟩
    obtain ⟨i, hi⟩ := List.mem_iff_getElem?.1 hmem
    obtain ⟨hprev, hnext⟩ := siblings_of_childElements t.left.linked hi
    rw [← t.childElements_eq p] at hi
    obtain ⟨hprev', hnext'⟩ := siblings_of_childElements t.right.linked hi
    rw [hprev, hprev', hnext, hnext', t.childElements_eq]
    exact ⟨rfl, rfl⟩

theorem ancestors_eq (hx : ¬ d.isText x = true) : e.ancestors x = d.ancestors x := by
  induction x using t.left.linked.up_induction with
  | step x ih =>
    have hup := t.parent?_eq hx
    cases hp : d.parent? x with
    | none =>
      rw [hp] at hup
      rw [Linked.ancestors_of_none hp, Linked.ancestors_of_none hup]
    | some p =>
      rw [hp] at hup
      rw [t.left.linked.ancestors_of_some hp, t.right.linked.ancestors_of_some hup,
        ih p hp (t.left.linked.not_isText_parent hp)]

theorem descendantElements_eq (x : NodeId) : e.descendantElements x = d.descendantElements x := by
  induction x using t.left.linked.down_induction with
  | step x ih =>
    rw [t.left.linked.descendantElements_eq, t.right.linked.descendantElements_eq,
      t.childElements_eq]
    refine List.flatMap_congr fun c hc => ?_
    rw [ih c (List.mem_filter.1 hc).1]

/-- The elements of the tree of a node are the same, in the same order. -/
theorem filter_wholeTree (hx : ¬ d.isText x = true) :
    (e.wholeTree x).filter e.isElement = (d.wholeTree x).filter d.isElement := by
  have htop : e.top x = d.top x := by rw [top, top, t.ancestors_eq hx]
  have hbelow := t.descendantElements_eq (d.top x)
  rw [descendantElements, descendantElements] at hbelow
  rw [wholeTree, wholeTree, htop, List.filter_cons, List.filter_cons, hbelow, t.isElement_eq]

/-! ### Selections -/

theorem any_isDocument_parent? (hx : ¬ d.isText x = true) :
    (e.parent? x).any e.isDocument = (d.parent? x).any d.isDocument := by
  rw [t.parent?_eq hx]
  cases hp : d.parent? x with
  | none => rfl
  | some p =>
    rw [Option.any_some, Option.any_some, isDocument, isDocument,
      t.kind?_eq (t.left.linked.not_isText_parent hp)]

/-- Every element mirrors itself. -/
theorem mirrors : Mirrors d e fun x y => x = y ∧ d.isElement x = true := by
  have hsame : ∀ {xs : List NodeId}, (∀ x ∈ xs, d.isElement x = true) →
      List.Forall₂ (fun x y => x = y ∧ d.isElement x = true) xs xs := fun hxs =>
    List.forall₂_same.2 fun x hx => ⟨rfl, hxs x hx⟩
  have hfilter : ∀ xs : List NodeId, ∀ x ∈ xs.filter d.isElement, d.isElement x = true :=
    fun xs x hx => (List.mem_filter.1 hx).2
  constructor
  case parent =>
    rintro x _ ⟨rfl, hx⟩
    rw [parentElement?, parentElement?, t.parent?_eq (not_isText_of_isElement hx),
      funext t.isElement_eq]
    exact hsame fun y hy => (Option.filter_eq_some_iff.1 (Option.mem_toList.1 hy)).2
  case ancestors =>
    rintro x _ ⟨rfl, hx⟩
    rw [ancestorElements, ancestorElements, t.ancestors_eq (not_isText_of_isElement hx),
      funext t.isElement_eq]
    exact hsame (hfilter _)
  all_goals
    rintro x _ ⟨rfl, hx⟩
    have htext := not_isText_of_isElement hx
    have halike := t.alike (contains_of_isElement hx) htext
    have hsiblings := t.siblings_eq htext
  case name? => exact halike.name?
  case attribute? => exact halike.attribute?
  case textContent => exact halike.textContent
  case hollow => exact halike.hollow
  case root => exact (t.any_isDocument_parent? htext).symm
  case previous => rw [hsiblings.1]; exact hsame (hfilter _)
  case following => rw [hsiblings.2]; exact hsame (hfilter _)

theorem relatedToContext_eq (hctx : ¬ d.isText context = true) (hx : d.isElement x = true)
    (c : Combinator) : d.relatedToContext context c x = e.relatedToContext context c x := by
  have htext := not_isText_of_isElement hx
  have hnext := (t.siblings_eq hctx).2
  cases c with
  | descendant =>
    rw [relatedToContext, relatedToContext, isAncestorOrSelf, isAncestorOrSelf,
      t.ancestors_eq htext]
  | child => rw [relatedToContext, relatedToContext, t.parent?_eq htext]
  | adjacent => rw [relatedToContext, relatedToContext, nextElement?, nextElement?, hnext]
  | general =>
    have hmem := congrArg (x ∈ ·) hnext
    simp only [followingElements, List.mem_filter, t.isElement_eq, hx, and_true] at hmem
    rw [relatedToContext, relatedToContext, Bool.eq_iff_iff, List.contains_iff_mem,
      List.contains_iff_mem, hmem]

theorem accepts_eq (hctx : ¬ d.isText context = true) (hx : d.isElement x = true) (chain : Chain) :
    chain.accepts d context x = chain.accepts e context x :=
  t.mirrors.accepts_eq (fun _ _ h => by rw [h.1])
    (fun c _ _ h => h.1 ▸ t.relatedToContext_eq hctx h.2 c) chain ⟨rfl, hx⟩

theorem select_eq (hctx : ¬ d.isText context = true) (alternatives : List Chain) :
    e.select alternatives context = d.select alternatives context := by
  have hlive := t.merged.contains_eq hctx
  by_cases hd : d.contains context = true
  · rw [select_eq_filter_elements t.left.linked hd,
      select_eq_filter_elements t.right.linked (hlive.trans hd), t.filter_wholeTree hctx]
    refine List.filter_congr fun x hx => ?_
    simp only [t.accepts_eq hctx (List.mem_filter.1 hx).2]
  · rw [select, select, if_neg hd, hlive, if_neg hd]

end Tidied

/-- Normalizing changes no answer of a query, wherever it starts from. -/
theorem select_after_normalize (h : Reachable d) (hn : d.contains n = true) :
    ∃ e, d.normalize n = .ok e ∧ InPlace.normalize n d = .ok () e ∧
      ∀ (s : Selector) (context : NodeId), ¬ d.isText context = true →
        e.contains context = d.contains context ∧ s.select e context = s.select d context := by
  have hw := wellFormed_of_reachable h
  obtain ⟨e, he, hrun, hwe⟩ := hw.exists_normalize hn
  have t : Tidied d e n := ⟨hw, hwe, he⟩
  exact ⟨e, he, hrun, fun s _ hctx => ⟨t.merged.contains_eq hctx, t.select_eq hctx s.alternatives⟩⟩

/-- An element holds a text in two pieces, and is selected by a text that stretches over both. -/
theorem select_after_normalize_split : ∃ d e : Document,
    d.contains ⟨1, 0⟩ = true ∧ d.normalize ⟨1, 0⟩ = .ok e ∧ ¬ d.isText .root = true ∧
        (⟨":contains(rs)", [[⟨.descendant, none, [.contains "rs"]⟩]]⟩ : Selector).select e .root =
          [⟨1, 0⟩] := by
  obtain ⟨d, hd, hn, htext, hselect⟩ : ∃ d : Document, Reachable d ∧
      d.contains ⟨1, 0⟩ = true ∧ ¬ d.isText .root = true ∧
        (⟨":contains(rs)", [[⟨.descendant, none, [.contains "rs"]⟩]]⟩ : Selector).select d .root =
          [⟨1, 0⟩] := by
    refine ⟨_, @Reachable.ofSignals .default [.startTag "a" [], .text "r", .text "s"] _ rfl,
      ?_, ?_, ?_⟩
    · decide +kernel
    · decide +kernel
    · decide +kernel
  obtain ⟨e, he, -, hsame⟩ := select_after_normalize hd hn
  exact ⟨d, e, hn, he, htext, (hsame _ .root htext).2.trans hselect⟩

end MarkupTree.Document
