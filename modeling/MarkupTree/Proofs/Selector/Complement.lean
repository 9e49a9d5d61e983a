import MarkupTree.Proofs.Selector.Correspondence
import MarkupTree.Proofs.Selector.Enclosed

/-!
# Selecting from a document node

A chain that ends below a document node has all its elements below it, as no step of a chain to the
left leads out. So it does not matter for a chain without a leading mark whether it has to begin
below the node, and an element is selected just if it is not selected by the exclusion.
-/

namespace MarkupTree.Document

variable {d : Document} {a e x y : NodeId} {r : Combinator} {alternatives : List Chain}

/-- If no step to the left leads out of a set, a chain that ends in the set is asked nothing about
elements outside it. -/
theorem EndsIn.congr_within {q : NodeId → Prop}
    (hq : ∀ r x y, d.isElement x = true → d.Stands r x y → q y → q x) (he : q e) :
    ∀ {ps : List Part} {start start' : Combinator → NodeId → Prop},
      (∀ p ∈ ps.head?, ∀ y, q y → (start p.relation y ↔ start' p.relation y)) →
      (d.EndsIn start ps e ↔ d.EndsIn start' ps e)
  | [], _, _, _ => iff_of_false not_endsIn_nil not_endsIn_nil
  | [p], start, start', h => by
    rw [endsIn_singleton, endsIn_singleton, h p rfl e he]
  | p :: p' :: ps, start, start', h => by
    rw [endsIn_cons_cons, endsIn_cons_cons]
    -- The element of the first part stands to the left of one in the set, so it is in the set.
    refine EndsIn.congr_within hq he fun p' _ z hz => exists_congr fun y => ?_
    refine and_congr_right fun hy => and_congr_right fun _ => and_congr_left fun hstands => ?_
    exact h p rfl y (hq p'.relation y z hy hstands hz)

/-- No step to the left leads out of a document node. -/
theorem Linked.passes_of_stands_left (h : d.Linked) (ha : d.isDocument a = true)
    (hx : d.isElement x = true) (hstands : d.Stands r x y) (hy : Passes d.parent? y a) :
    Passes d.parent? x a := by
  have hne : x ≠ a := fun hxa => not_isDocument_of_isElement hx (hxa ▸ ha)
  have hbelow : Reaches d.parent? x a → Passes d.parent? x a :=
    fun hxa => (reaches_iff.1 hxa).resolve_left hne
  cases r with
  | descendant =>
    rcases hstands.reaches.total hy.reaches with hxa | hax
    · exact hbelow hxa
    · exact absurd (hax.eq_of_none (h.document ha)) hne
  | child =>
    obtain ⟨p, hp, hpa⟩ := passes_iff.1 hy
    obtain rfl : p = x := Option.some.inj (hp.symm.trans hstands)
    exact hbelow hpa
  | adjacent => exact (h.passes_iff_of_later hstands.later).2 hy
  | general => exact (h.passes_iff_of_later hstands).2 hy

theorem matches_of_isDocument (h : d.Linked) (ha : d.isDocument a = true) {chain : Chain}
    (hchain : chain.leading? = some .descendant) (he : Passes d.parent? e a) :
    d.Matches a chain e ↔ d.EndsIn (fun _ _ => True) chain e := by
  cases chain with
  | nil => cases hchain
  | cons p ps =>
    refine EndsIn.congr_within (fun r x y => h.passes_of_stands_left ha) he ?_
    rintro _ ⟨⟩ y hy
    rw [Option.some.inj hchain]
    exact iff_of_true hy trivial

/-- From a document node those elements below it are selected in which a chain ends, wherever it
begins. -/
theorem select_eq_filter_someChainEnds (h : d.Linked) (ha : d.isDocument a = true)
    (hlead : ∀ chain ∈ alternatives, chain.leading? = some .descendant) :
    d.select alternatives a = (d.descendantElements a).filter (someChainEnds d alternatives ·) := by
  rw [select_of_isDocument h ha]
  refine List.filter_congr fun x hx => ?_
  obtain ⟨hbelow, hel⟩ := List.mem_filter.1 hx
  have hpass := h.mem_descendants.1 hbelow
  rw [Bool.eq_iff_iff, List.any_eq_true, h.someChainEnds_iff hel]
  refine exists_congr fun chain => and_congr_right fun hchain => ?_
  rw [h.accepts_iff hel, matches_of_isDocument h ha (hlead chain hchain) hpass]

theorem someChainEnds_not (d : Document) (alternatives : List Chain) (x : NodeId) :
    someChainEnds d [[⟨.descendant, none, [.not alternatives]⟩]] x =
      !someChainEnds d alternatives x := by
  simp [someChainEnds, chainEnds, Part.holds, allHold, Simple.holds]

/-- An element below a document node matches a selector without leading marks just if it is selected
from the node. Between the brackets of `:not` a text of such a selector compiles as well, and the
two together select every element below the node once. -/
theorem select_perm_not {x : Selector}
    (hlead : ∀ chain ∈ x.alternatives, chain.leading? = some .descendant) :
    (∀ (d : Document) (a e : NodeId), Reachable d → d.isDocument a = true →
      e ∈ d.descendantElements a → (x.accepts d e = true ↔ e ∈ x.select d a)) ∧
    ∀ source, Selector.scan source = .ok x →
      ∃ y, Selector.scan (":not(" ++ source ++ ")") = .ok y ∧
        ∀ (d : Document) (a : NodeId), Reachable d → d.isDocument a = true →
          (x.select d a ++ y.select d a).Perm (d.descendantElements a) ∧
            (d.descendantElements a).Nodup := by
  refine ⟨fun d a e hd ha he => ?_, fun source hscan => ?_⟩
  · have h := (wellFormed_of_reachable hd).linked
    rw [Selector.select, select_eq_filter_someChainEnds h ha hlead, List.mem_filter,
      Selector.accepts]
    exact (and_iff_right he).symm
  · have hblank : x.alternatives ≠ [[]] := fun hx => by
      cases hlead [] (hx ▸ List.mem_singleton_self _)
    refine ⟨_, Selector.scan_not hscan hblank, fun d a hd ha => ?_⟩
    have h := (wellFormed_of_reachable hd).linked
    have hnot : ∀ chain ∈ [[⟨.descendant, none, [.not x.alternatives]⟩]],
        Chain.leading? chain = some .descendant := by
      intro chain hchain
      rw [List.mem_singleton.1 hchain]
      rfl
    rw [Selector.select, Selector.select, select_eq_filter_someChainEnds h ha hlead,
      select_eq_filter_someChainEnds h ha hnot]
    simp only [someChainEnds_not]
    exact ⟨List.filter_append_perm .., (h.nodup_descendants a).filter _⟩

/-- One of two elements of a name is a child of an element of another. -/
theorem select_perm_not_child : ∃ (d : Document) (x y : Selector),
    Selector.scan "b>i" = .ok x ∧ Selector.scan ":not(b>i)" = .ok y ∧
      d.descendantElements .root = [⟨1, 0⟩, ⟨2, 0⟩, ⟨3, 0⟩] ∧ x.select d .root = [⟨2, 0⟩] ∧
      x.accepts d ⟨2, 0⟩ = true ∧
      (⟨2, 0⟩ :: y.select d .root).Perm [⟨1, 0⟩, ⟨2, 0⟩, ⟨3, 0⟩] := by
  obtain ⟨d, x, hd, hroot, hscan, hlead, hall, hsel⟩ : ∃ (d : Document) (x : Selector),
      Reachable d ∧ d.isDocument .root = true ∧ Selector.scan "b>i" = .ok x ∧
        (∀ chain ∈ x.alternatives, chain.leading? = some .descendant) ∧
        d.descendantElements .root = [⟨1, 0⟩, ⟨2, 0⟩, ⟨3, 0⟩] ∧
        x.select d .root = [⟨2, 0⟩] := by
    refine ⟨_, ⟨"b>i", [[⟨.descendant, some "b", []⟩, ⟨.child, some "i", []⟩]]⟩,
      @Reachable.ofSignals .default [.startTag "b" [], .startTag "i" [], .endTag "i", .endTag "b",
        .startTag "i" [], .endTag "i"] _ rfl, ?_, rfl, ?_, ?_, ?_⟩
    · decide +kernel
    · intro chain hchain
      rw [List.mem_singleton.1 hchain]
      rfl
    · decide +kernel
    · decide +kernel
  obtain ⟨haccepts, hnot⟩ := select_perm_not hlead
  obtain ⟨y, hy, hperm⟩ := hnot _ hscan
  have hmem := haccepts d .root ⟨2, 0⟩ hd hroot (by rw [hall]; decide)
  refine ⟨d, x, y, hscan, hy, hall, hsel, hmem.2 (by rw [hsel]; decide), ?_⟩
  have hboth := (hperm d .root hd hroot).1
  rwa [hsel, hall] at hboth

end MarkupTree.Document
