import MarkupTree.Proofs.Reachable
import MarkupTree.Proofs.Selector.Chains
import MarkupTree.Selector.Selection

/-!
# What a selection selects

The candidates of a selection stand in document order, and whatever a chain can lead to is among
them: a chain that starts below a node stays below it, and one that starts beside a node stays in
the trees of its following siblings.
-/

namespace MarkupTree.Document

variable {d : Document} {x y e context : NodeId} {r : Combinator} {alternatives : List Chain}

namespace Linked

/-- Whatever stands below a node or behind a node below it is below it. -/
theorem passes_of_stands (h : d.Linked) (hx : Passes d.parent? x context)
    (hy : d.Stands r x y) : Passes d.parent? y context := by
  cases r with
  | descendant => exact Relation.TransGen.trans hy hx
  | child => exact Relation.TransGen.head hy hx
  | adjacent => exact (h.passes_iff_of_later hy.later).1 hx
  | general => exact (h.passes_iff_of_later hy).1 hx

/-- Whatever stands below or behind a node in the trees behind `context` is in these trees. -/
theorem reaches_later_of_stands (h : d.Linked)
    (hx : ∃ s, d.Later context s ∧ Reaches d.parent? x s) (hy : d.Stands r x y) :
    ∃ s, d.Later context s ∧ Reaches d.parent? y s := by
  obtain ⟨s, hs, hxs⟩ := hx
  have hbelow : Passes d.parent? y x → ∃ s, d.Later context s ∧ Reaches d.parent? y s :=
    fun hyx => ⟨s, hs, hyx.reaches.trans hxs⟩
  have hbeside : d.Later x y → ∃ s, d.Later context s ∧ Reaches d.parent? y s := by
    intro hl
    obtain ⟨p, hxp, hyp⟩ := h.parent?_of_later hl
    rcases hxs.cases with rfl | ⟨q, hxq, hq⟩
    · exact ⟨y, h.later_trans hs hl, .refl⟩
    · rw [hxp, Option.some.injEq] at hxq
      exact ⟨s, hs, .step hyp (hxq ▸ hq)⟩
  cases r with
  | descendant => exact hbelow hy
  | child => exact hbelow (.single hy)
  | adjacent => exact hbeside hy.later
  | general => exact hbeside hy

end Linked

/-- What no step of a chain leaves holds of the last element of a chain. -/
theorem Fits.last {q : NodeId → Prop} (hq : ∀ r x y, q x → d.Stands r x y → q y) :
    ∀ {ps : List Part} {es : List NodeId} {x : NodeId}, q x →
      d.Fits (fun r y => d.Stands r x y) ps es → q (es.getLastD x)
  | [], [], _, hx, _ => hx
  | p :: ps, e :: es, x, hx, ⟨_, _, hr, hes⟩ => by
    rw [List.getLastD_cons]
    exact Fits.last hq (hq _ x e hx hr) hes

theorem last_of_getLast? {α : Type} {l : List α} {a b : α} (h : (a :: l).getLast? = some b) :
    l.getLastD a = b := by
  rw [List.getLast?_cons, Option.some.injEq] at h
  rw [← h, List.getLastD_eq_getLast?]

/-- The candidates stand in document order. -/
theorem candidates_sublist (h : d.Linked) (alternatives : List Chain) (context : NodeId) :
    (d.candidates alternatives context).Sublist (d.wholeTree context) := by
  refine List.Sublist.trans ?_ (h.sublist_wholeTree context)
  have hite : ∀ (b : Bool) (l : List NodeId), (if b = true then l else []).Sublist l := by
    intro b l
    cases b with
    | true => exact .refl l
    | false => exact List.nil_sublist l
  exact ((hite _ [context]).append (hite _ _)).append (hite _ _)

/-- The last element of a chain is where the relation of its first part leads. -/
theorem Matches.reached (h : d.Linked) {p : Part} {ps : List Part}
    (he : d.Matches context (p :: ps) e) :
    (p.relation = .descendant ∨ p.relation = .child) ∧ Passes d.parent? e context ∨
      (p.relation = .adjacent ∨ p.relation = .general) ∧
        ∃ s, d.Later context s ∧ Reaches d.parent? e s := by
  obtain ⟨es, hes, hlast⟩ := he
  match es, hes with
  | x :: es, ⟨_, _, hr, hes⟩ =>
    have hbelow : Passes d.parent? x context → Passes d.parent? e context := fun hx =>
      last_of_getLast? hlast ▸ Fits.last (fun _ _ _ => h.passes_of_stands) hx hes
    have hbeside : d.Later context x → ∃ s, d.Later context s ∧ Reaches d.parent? e s :=
      fun hx => last_of_getLast? hlast ▸
        Fits.last (q := fun y => ∃ s, d.Later context s ∧ Reaches d.parent? y s)
          (fun _ _ _ => h.reaches_later_of_stands) ⟨x, hx, .refl⟩ hes
    cases hrel : p.relation with
    | descendant =>
      rw [hrel] at hr
      exact .inl ⟨.inl rfl, hbelow hr⟩
    | child =>
      rw [hrel] at hr
      exact .inl ⟨.inr rfl, hbelow (.single hr)⟩
    | adjacent =>
      rw [hrel] at hr
      exact .inr ⟨.inl rfl, hbeside hr.later⟩
    | general =>
      rw [hrel] at hr
      exact .inr ⟨.inr rfl, hbeside hr⟩

/-- A matching element is a candidate. -/
theorem mem_candidates (h : d.Linked) {chain : Chain} (hc : chain ∈ alternatives)
    (he : d.Matches context chain e) : e ∈ d.candidates alternatives context := by
  rw [candidates, List.mem_append, List.mem_append]
  cases chain with
  | nil =>
    have hany : alternatives.any List.isEmpty = true := List.any_eq_true.2 ⟨[], hc, rfl⟩
    have he : e = context := he
    exact .inl (.inl (by rw [if_pos hany, he]; exact List.mem_singleton_self _))
  | cons p ps =>
    have hleads : ∀ relations : List Combinator, p.relation ∈ relations →
        (alternatives.any fun chain => chain.leading?.any relations.contains) = true := by
      intro relations hp
      refine List.any_eq_true.2 ⟨p :: ps, hc, ?_⟩
      simpa [Chain.leading?] using hp
    rcases he.reached h with ⟨hrel, hpass⟩ | ⟨hrel, s, hs, hreach⟩
    · refine .inl (.inr ?_)
      rw [if_pos (hleads [.descendant, .child] (by simpa using hrel)), h.mem_descendants]
      exact hpass
    · refine .inr ?_
      rw [if_pos (hleads [.adjacent, .general] (by simpa using hrel)), List.mem_flatMap]
      exact ⟨s, h.mem_following.2 hs, h.mem_cons_descendants.2 hreach⟩

/-- Of a list without repetition a part that has all entries that pass has them in their order. -/
theorem filter_eq_of_sublist {α : Type} {l l' : List α} {q : α → Bool} (hs : l.Sublist l')
    (hnd : l'.Nodup) (hq : ∀ x ∈ l', q x = true → x ∈ l) : l.filter q = l'.filter q := by
  refine (hs.filter q).eq_of_length_le ?_
  refine (List.subperm_of_subset (hnd.filter q) fun x hx => ?_).length_le
  obtain ⟨hx, hqx⟩ := List.mem_filter.1 hx
  exact List.mem_filter.2 ⟨hq x hx hqx, hqx⟩

/-- An element that some alternative selects from a node. -/
def Selected (d : Document) (alternatives : List Chain) (context e : NodeId) : Prop :=
  d.isElement e = true ∧ ∃ chain ∈ alternatives, d.Matches context chain e

theorem select_eq (h : d.Linked) (hctx : d.contains context = true) (alternatives : List Chain) :
    d.select alternatives context = (d.wholeTree context).filter fun e =>
      d.isElement e && alternatives.any (·.accepts d context e) := by
  have hsub := candidates_sublist h alternatives context
  rw [select, if_pos hctx, List.filter_filter]
  have hcomm : ∀ l : List NodeId,
      (l.filter fun e => (alternatives.any (·.accepts d context e)) && d.isElement e) =
        l.filter fun e => d.isElement e && alternatives.any (·.accepts d context e) := by
    intro l
    congr 1
    funext e
    exact Bool.and_comm ..
  rw [hcomm]
  refine filter_eq_of_sublist hsub (h.nodup_wholeTree context) fun e _ he => ?_
  obtain ⟨hel, hany⟩ := Bool.and_eq_true_iff.1 he
  obtain ⟨chain, hc, hacc⟩ := List.any_eq_true.1 hany
  exact mem_candidates h hc ((h.accepts_iff hel).1 hacc)

theorem select_eq_filter_elements (h : d.Linked) (hctx : d.contains context = true)
    (alternatives : List Chain) : d.select alternatives context =
      ((d.wholeTree context).filter d.isElement).filter fun e =>
        alternatives.any (·.accepts d context e) := by
  rw [select_eq h hctx, List.filter_filter]
  exact List.filter_congr fun e _ => Bool.and_comm ..

theorem selected_iff (h : d.Linked) : d.Selected alternatives context e ↔
    (d.isElement e && alternatives.any (·.accepts d context e)) = true := by
  rw [Bool.and_eq_true, List.any_eq_true]
  refine and_congr_right fun he => exists_congr fun chain => and_congr_right fun _ => ?_
  exact (h.accepts_iff he).symm

open Classical in
/-- A selection gives the matching elements of the tree of its context, each once and in document
order. There are no others, and no candidate is tried twice. -/
theorem toList_selection (h : Reachable d) (hctx : d.contains context = true)
    (alternatives : List Chain) :
    (d.selection alternatives context).toList.2 =
        (d.wholeTree context).filter (fun e => d.Selected alternatives context e) ∧
      (d.wholeTree context).Nodup ∧
      (∀ x, d.descendants x = (d.children x).flatMap fun c => c :: d.descendants c) ∧
      (∀ e, d.Selected alternatives context e →
        e ∈ d.wholeTree context ∧ e ∈ d.candidates alternatives context) ∧
      (d.candidates alternatives context).Nodup ∧
      ∀ (chains : List Chain) (x : NodeId), d.isElement x = true →
        ((Simple.not chains).holds d x = true ↔
          ¬ ∃ ps ∈ chains, d.EndsIn (fun _ _ => True) ps x) := by
  have hl := (wellFormed_of_reachable h).linked
  have hsub := candidates_sublist hl alternatives context
  have hcand : ∀ e, d.Selected alternatives context e → e ∈ d.candidates alternatives context :=
    fun e ⟨_, _, hc, he⟩ => mem_candidates hl hc he
  refine ⟨?_, hl.nodup_wholeTree context, hl.descendants_eq_flatMap,
    fun e he => ⟨hsub.subset (hcand e he), hcand e he⟩, hsub.nodup (hl.nodup_wholeTree context),
    fun chains x hx => hl.not_holds_iff hx⟩
  rw [Sequence.toList_eq, items_selection, select_eq hl hctx]
  refine List.filter_congr fun e _ => ?_
  rw [Bool.eq_iff_iff, decide_eq_true_iff, selected_iff hl]

/-- Two paragraphs, and the chain `p > b ~ i` from the element around them: of the second paragraph
only the `i` behind the `b` is selected. -/
theorem toList_selection_paragraphs : ∃ (d : Document) (chain : Chain), Reachable d ∧
    chain = [⟨.descendant, some "p", []⟩, ⟨.child, some "b", []⟩, ⟨.general, some "i", []⟩] ∧
      d.children ⟨1, 0⟩ = [⟨2, 0⟩, ⟨6, 0⟩] ∧ d.children ⟨2, 0⟩ = [⟨3, 0⟩, ⟨4, 0⟩, ⟨5, 0⟩] ∧
        d.children ⟨6, 0⟩ = [⟨7, 0⟩, ⟨8, 0⟩, ⟨9, 0⟩] ∧
          (d.selection [chain] ⟨1, 0⟩).toList.2 = [⟨5, 0⟩, ⟨9, 0⟩] ∧
            ∀ e, d.Selected [chain] ⟨1, 0⟩ e ↔ e = ⟨5, 0⟩ ∨ e = ⟨9, 0⟩ := by
  let chain : Chain :=
    [⟨.descendant, some "p", []⟩, ⟨.child, some "b", []⟩, ⟨.general, some "i", []⟩]
  obtain ⟨d, hd, hctx, houter, hfirst, hsecond, hselect⟩ : ∃ d : Document, Reachable d ∧
      d.contains ⟨1, 0⟩ = true ∧ d.children ⟨1, 0⟩ = [⟨2, 0⟩, ⟨6, 0⟩] ∧
        d.children ⟨2, 0⟩ = [⟨3, 0⟩, ⟨4, 0⟩, ⟨5, 0⟩] ∧
          d.children ⟨6, 0⟩ = [⟨7, 0⟩, ⟨8, 0⟩, ⟨9, 0⟩] ∧
            d.select [chain] ⟨1, 0⟩ = [⟨5, 0⟩, ⟨9, 0⟩] := by
    refine ⟨_, @Reachable.ofSignals .default [.startTag "div" [],
      .startTag "p" [], .startTag "b" [], .endTag "b", .text "t", .startTag "i" [], .endTag "i",
      .endTag "p", .startTag "p" [], .startTag "i" [], .endTag "i", .startTag "b" [], .endTag "b",
      .startTag "i" [], .endTag "i", .endTag "p", .endTag "div"] _ rfl, ?_, ?_, ?_, ?_, ?_⟩
    · decide +kernel
    · decide +kernel
    · decide +kernel
    · decide +kernel
    · decide +kernel
  obtain ⟨hsel, -, -, hwhole, -⟩ := toList_selection hd hctx [chain]
  have hlist : (d.selection [chain] ⟨1, 0⟩).toList.2 = [⟨5, 0⟩, ⟨9, 0⟩] := by
    rw [Sequence.toList_eq, items_selection, hselect]
  refine ⟨d, chain, hd, rfl, houter, hfirst, hsecond, hlist, fun e => ?_⟩
  have hmem : e ∈ (d.selection [chain] ⟨1, 0⟩).toList.2 ↔ d.Selected [chain] ⟨1, 0⟩ e := by
    simp only [hsel, List.mem_filter, decide_eq_true_eq]
    exact and_iff_right_of_imp fun he => (hwhole e he).1
  rw [← hmem, hlist, List.mem_cons, List.mem_singleton]

end MarkupTree.Document
