import MarkupTree.Proofs.Document.Axes
import MarkupTree.Proofs.Player
import MarkupTree.Proofs.Signal.Texts
import MarkupTree.Proofs.Text.Tokens
import MarkupTree.Selector.Match
import Mathlib.Data.List.Infix

/-!
# How the views of texts fit together

The texts at and below a node are collected from the nodes, are played among the signals, and are
followed down a chain of only children to its leaf. All of them go along the children of a node, and
so they are compared from the leaves up.
-/

namespace MarkupTree

/-- The leaf text of a list of trees is that of its only tree that is not a blank text. -/
theorem Tree.soleLeafText?_eq : ∀ ts : List Tree, soleLeafText? ts =
    match ts.filter (!·.isBlankText) with
    | [] => some ""
    | [t] => t.leafText?
    | _ => none
  | [] => rfl
  | t :: ts => by
    rw [soleLeafText?]
    by_cases ht : t.isBlankText = true
    · rw [if_pos ht, soleLeafText?_eq ts, List.filter_cons_of_neg (by simp [ht])]
    · rw [if_neg ht, List.filter_cons_of_pos (by simpa using ht)]
      have hrest : ts.all isBlankText = true ↔ ts.filter (!·.isBlankText) = [] := by simp
      cases hts : ts.filter (!·.isBlankText) with
      | nil => rw [if_pos (hrest.2 hts)]
      | cons u us => rw [if_neg (by rw [hrest, hts]; exact List.cons_ne_nil u us)]

namespace Document

variable {d : Document} {n x : NodeId} {s : String}

/-- The children that are not blank texts. -/
def meaningful (d : Document) (x : NodeId) : List NodeId :=
  (d.children x).filter fun c => !(d.text? c).any Text.isBlank

/-! ### Texts along the children -/

theorem Linked.texts_eq_flatMap (h : d.Linked) (hx : d.text? x = none) :
    d.texts x = (d.children x).flatMap d.texts := by
  rw [texts, hx, h.descendants_eq_flatMap]
  simp only [List.filterMap_flatMap, h.filterMap_text?_cons]

/-- The texts below a node are among those of the node, without a gap. -/
theorem Linked.texts_isInfix (h : d.Linked) (hx : x ∈ d.descendants n) :
    d.texts x <:+: d.texts n := by
  induction n using h.down_induction with
  | step n ih =>
    rw [h.descendants_eq_flatMap, List.mem_flatMap] at hx
    obtain ⟨c, hc, hx⟩ := hx
    -- A node with a child is no text, so its texts are those of its children.
    have hn : d.text? n = none := Option.eq_none_iff_forall_ne_some.2 fun s hs => by
      rw [h.children_of_text? hs] at hc
      cases hc
    have hcn : d.texts c <:+: d.texts n := by
      rw [h.texts_eq_flatMap hn]
      exact List.infix_of_mem_flatten (List.mem_map_of_mem hc)
    rcases List.mem_cons.1 hx with rfl | hx
    · exact hcn
    · exact (ih c hc hx).trans hcn

theorem Linked.textContent_isInfix (h : d.Linked) (hx : x ∈ d.descendants n) :
    (d.textContent x).toList <:+: (d.textContent n).toList := by
  rw [textContent, textContent, String.toList_join, String.toList_join]
  exact List.IsInfix.flatMap (h.texts_isInfix hx) _

theorem trimmedTexts_of_text? (hs : d.text? x = some s) :
    d.trimmedTexts x = if Text.isBlank s then [] else [Text.trim s] := by
  rw [trimmedTexts, texts_of_text? hs, List.map_singleton, List.filter_singleton, Text.isEmpty_trim]
  cases Text.isBlank s <;> rfl

/-- Blank texts among the children add nothing to the trimmed texts. -/
theorem Linked.trimmedTexts_eq_flatMap (h : d.Linked) (hx : d.text? x = none) :
    d.trimmedTexts x = (d.meaningful x).flatMap d.trimmedTexts := by
  have hall : d.trimmedTexts x = (d.children x).flatMap d.trimmedTexts := by
    rw [trimmedTexts, h.texts_eq_flatMap hx, List.map_flatMap, List.filter_flatMap]
    rfl
  rw [hall, meaningful]
  induction d.children x with
  | nil => rfl
  | cons c cs ih =>
    rw [List.flatMap_cons, ih, List.filter_cons]
    split
    · rfl
    · rename_i hblank
      simp only [Bool.not_eq_true', Bool.not_eq_false, Option.any_eq_true] at hblank
      obtain ⟨s, hs, hblank⟩ := hblank
      rw [trimmedTexts_of_text? hs, if_pos hblank, List.nil_append]

/-! ### The leaf text along the children -/

theorem Shows.leafText?_eq (h : d.Linked) {t : Tree} (ht : d.Shows t x) :
    d.leafText? x = t.leafText? := by
  rw [leafText?, ht.tree?_eq h, Option.bind_some]

theorem Linked.leafText?_of_text? (h : d.Linked) (hs : d.text? x = some s) :
    d.leafText? x = some s := by
  obtain ⟨c, hc, hcs⟩ := Option.bind_eq_some_iff.1 hs
  rw [leafText?, h.tree?_eq, hc]
  cases c with
  | text s => exact hcs
  | document | element => cases hcs

theorem ShowsList.soleLeafText?_eq (h : d.Linked) {ts : List Tree}
    (hts : d.ShowsList ts (d.children x)) : Tree.soleLeafText? ts =
      match d.meaningful x with
      | [] => some ""
      | [c] => d.leafText? c
      | _ => none := by
  have hfilter : d.ShowsList (ts.filter (!·.isBlankText)) (d.meaningful x) := by
    refine hts.filter fun t c ht => ?_
    cases t with
    | text s => rw [text?_of_content? ht.1]; rfl
    | document | element => rw [text?_of_content? ht.1]; rfl
  rw [Tree.soleLeafText?_eq]
  generalize ts.filter (!·.isBlankText) = us at hfilter ⊢
  generalize d.meaningful x = cs at hfilter ⊢
  match us, cs, hfilter with
  | [], [], _ => rfl
  | [t], [c], hs => exact (hs.1.leafText?_eq h).symm
  | _ :: _ :: _, _ :: _ :: _, _ => rfl

theorem Linked.leafText?_eq (h : d.Linked) (hlive : d.contains x = true) (hx : d.text? x = none) :
    d.leafText? x =
      match d.meaningful x with
      | [] => some ""
      | [c] => d.leafText? c
      | _ => none := by
  obtain ⟨t, ht⟩ := h.exists_shows x hlive
  rw [ht.leafText?_eq h]
  cases t with
  | text s => rw [text?_of_content? ht.1] at hx; cases hx
  | document ts => exact ht.2.soleLeafText?_eq h
  | element name as ts => exact ht.2.soleLeafText?_eq h

/-- From a node to its only child that is not a blank text. -/
def Narrows (d : Document) (x c : NodeId) : Prop := d.meaningful x = [c]

theorem contains_of_mem_meaningful (h : d.Linked) {c : NodeId} (hc : c ∈ d.meaningful x) :
    c ∈ d.children x ∧ d.contains c = true :=
  ⟨(List.mem_filter.1 hc).1, h.contains_child (List.mem_filter.1 hc).1⟩

/-- The leaf text is all that is left of the texts when they are trimmed. -/
theorem Linked.trimmedTexts_of_leafText? (h : d.Linked) (hlive : d.contains n = true)
    (ht : d.leafText? n = some s) :
    d.trimmedTexts n = if Text.isBlank s then [] else [Text.trim s] := by
  induction n using h.down_induction with
  | step n ih =>
    cases hn : d.text? n with
    | some s' =>
      rw [h.leafText?_of_text? hn, Option.some.injEq] at ht
      exact trimmedTexts_of_text? (ht ▸ hn)
    | none =>
      rw [h.leafText?_eq hlive hn] at ht
      rw [h.trimmedTexts_eq_flatMap hn]
      match hm : d.meaningful n with
      | [] =>
        rw [hm] at ht
        cases ht
        rfl
      | [c] =>
        rw [hm] at ht
        obtain ⟨hc, hclive⟩ := contains_of_mem_meaningful h (hm ▸ List.mem_singleton_self c)
        rw [List.flatMap_singleton]
        exact ih c hc hclive ht
      | _ :: _ :: _ =>
        rw [hm] at ht
        cases ht

/-- There is no leaf text iff the way down comes to a node where it forks. -/
theorem Linked.leafText?_eq_none (h : d.Linked) (hlive : d.contains n = true) :
    d.leafText? n = none ↔
      ∃ m, Relation.ReflTransGen d.Narrows n m ∧ 2 ≤ (d.meaningful m).length := by
  induction n using h.down_induction with
  | step n ih =>
    -- The way down forks at the node itself or goes on from its only child.
    have hways : (∃ m, Relation.ReflTransGen d.Narrows n m ∧ 2 ≤ (d.meaningful m).length) ↔
        2 ≤ (d.meaningful n).length ∨ ∃ c, d.meaningful n = [c] ∧
          ∃ m, Relation.ReflTransGen d.Narrows c m ∧ 2 ≤ (d.meaningful m).length := by
      constructor
      · rintro ⟨m, hnm, hm⟩
        rcases Relation.ReflTransGen.cases_head hnm with rfl | ⟨c, hc, hcm⟩
        · exact .inl hm
        · exact .inr ⟨c, hc, m, hcm, hm⟩
      · rintro (hm | ⟨c, hc, m, hcm, hm⟩)
        · exact ⟨n, .refl, hm⟩
        · exact ⟨m, .head hc hcm, hm⟩
    rw [hways]
    cases hn : d.text? n with
    | some s =>
      have hleaf : d.meaningful n = [] := by rw [meaningful, h.children_of_text? hn]; rfl
      simp [h.leafText?_of_text? hn, hleaf]
    | none =>
      rw [h.leafText?_eq hlive hn]
      match hm : d.meaningful n with
      | [] => simp
      | [c] =>
        obtain ⟨hc, hclive⟩ := contains_of_mem_meaningful h (hm ▸ List.mem_singleton_self c)
        simpa using ih c hc hclive
      | _ :: _ :: _ => simp

/-! ### All views -/

/-- An element is accepted by `:contains(text)` iff its text holds the text. -/
theorem accepts_contains (d : Document) (source text : String) (x : NodeId) :
    (⟨source, [[⟨.descendant, none, [.contains text]⟩]]⟩ : Selector).accepts d x = true ↔
      text.toList <:+: (d.textContent x).toList := by
  rw [← Text.holds_iff]
  simp [Selector.accepts, someChainEnds, chainEnds, Part.holds, allHold, Simple.holds]

/-- What the views of the texts of a node say of each other. -/
structure TextsAgree (d : Document) (n : NodeId) : Prop where
  /-- The nodes below the node are those that a walk without a bound comes to. -/
  walked : Yields d.nextBelow? (d.children n) (d.descendants n)
  played : d.Plays [.enter n] (d.signals n)
  texts_eq : d.texts n = (d.signals n).filterMap Signal.text?
  textContent_eq : d.textContent n = String.join (d.texts n)
  content_isInfix : ∀ x ∈ d.descendants n, (d.textContent x).toList <:+: (d.textContent n).toList
  /-- What `:contains` accepts it accepts all the way up. -/
  accepts_contains : ∀ source text, ∀ x ∈ d.descendants n,
    (⟨source, [[⟨.descendant, none, [.contains text]⟩]]⟩ : Selector).accepts d x = true →
      (⟨source, [[⟨.descendant, none, [.contains text]⟩]]⟩ : Selector).accepts d n = true
  trimmedTexts_eq : ∀ t, d.leafText? n = some t →
    d.trimmedTexts n = if Text.isBlank t then [] else [Text.trim t]
  leafText?_eq_none : d.leafText? n = none ↔
    ∃ m, Relation.ReflTransGen d.Narrows n m ∧ 2 ≤ (d.meaningful m).length

theorem Linked.textsAgree (h : d.Linked) (hlive : d.contains n = true) : d.TextsAgree n where
  walked := h.yields_descendants n
  played := h.plays_iff.2 rfl
  texts_eq := by
    obtain ⟨t, ht⟩ := h.exists_shows n hlive
    rw [ht.texts_eq h, signals, ht.tree?_eq h]
  textContent_eq := rfl
  content_isInfix _ hx := h.textContent_isInfix hx
  accepts_contains source text x hx hacc := by
    rw [Document.accepts_contains] at hacc ⊢
    exact hacc.trans (h.textContent_isInfix hx)
  trimmedTexts_eq _ ht := h.trimmedTexts_of_leafText? hlive ht
  leafText?_eq_none := h.leafText?_eq_none hlive

/-- The texts at and below a node are the texts among its signals, hold the texts of all nodes
below, and come down to the leaf text, which is missing iff the way to the leaf forks. -/
theorem textsAgree_of_reachable (h : Reachable d) (hlive : d.contains n = true) : d.TextsAgree n :=
  (wellFormed_of_reachable h).linked.textsAgree hlive

/-- A text with a blank one beside it is the leaf text of the elements around it, up to the element
that has two children. -/
theorem textsAgree_of_nested : ∃ d : Document,
    d.leafText? ⟨1, 0⟩ = none ∧ d.leafText? ⟨2, 0⟩ = some " s" ∧
      d.trimmedTexts ⟨2, 0⟩ = ["s"] ∧
      d.texts ⟨1, 0⟩ = (d.signals ⟨1, 0⟩).filterMap Signal.text? ∧
      ∃ m, Relation.ReflTransGen d.Narrows ⟨1, 0⟩ m ∧ 2 ≤ (d.meaningful m).length := by
  obtain ⟨d, hd, houter, hinner, hnone, hsome⟩ : ∃ d : Document, Reachable d ∧
      d.contains ⟨1, 0⟩ = true ∧ d.contains ⟨2, 0⟩ = true ∧
        d.leafText? ⟨1, 0⟩ = none ∧ d.leafText? ⟨2, 0⟩ = some " s" := by
    refine ⟨_, @Reachable.ofSignals .default [.startTag "div" [], .startTag "p" [], .text "\n",
      .startTag "b" [], .text " s", .endTag "b", .endTag "p", .startTag "p" [], .endTag "p",
      .endTag "div"] _ rfl, ?_, ?_, ?_, ?_⟩ <;> decide +kernel
  have houter := textsAgree_of_reachable hd houter
  have hinner := textsAgree_of_reachable hd hinner
  exact ⟨d, hnone, hsome, hinner.trimmedTexts_eq _ hsome, houter.texts_eq,
    houter.leafText?_eq_none.1 hnone⟩

end Document

end MarkupTree
