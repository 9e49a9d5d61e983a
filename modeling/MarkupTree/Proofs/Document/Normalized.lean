import MarkupTree.Proofs.Document.Deleted
import MarkupTree.Proofs.Tree.Merged

/-!
# Normalizing a node

Normalizing merges the texts below a node and does nothing else. What it leaves is tidy, says what
was said before, and is not changed by normalizing it again.
-/

namespace MarkupTree.Document

variable {d e : Document} {n x c p : NodeId} {kept rest cs : List NodeId}
  {runs : List (List NodeId)}

/-- The texts below a node that are lost. -/
def lostBelow (d : Document) (n : NodeId) : List NodeId :=
  (n :: d.descendants n).flatMap fun c => (d.textRuns c).flatMap d.lostOf

/-- `e` is `d` with the texts below `n` merged, and all else is as it was. -/
structure Normalized (d : Document) (n : NodeId) (e : Document) : Prop where
  /-- In the place of each run stands its first node that is no empty text, if there is one. -/
  children : ∀ c ∈ n :: d.descendants n, e.children c = (d.textRuns c).filterMap d.keptOf?
  /-- A text that stays has taken up its run. -/
  merged : ∀ c ∈ n :: d.descendants n, ∀ run ∈ d.textRuns c, ∀ x, d.isText x = true →
    d.keptOf? run = some x → e.content? x = some (.text (d.runText run))
  contains_iff : ∀ x, e.contains x = true ↔ d.contains x = true ∧ x ∉ d.lostBelow n
  other_children : ∀ c, c ∉ n :: d.descendants n → e.children c = d.children c
  other_parent? : ∀ x, x ∉ d.lostBelow n → e.parent? x = d.parent? x
  other_content? : ∀ x, ¬ d.isText x = true ∨ x ∉ d.descendants n → e.content? x = d.content? x
  /-- The slot of every text that is lost counts one more reclamation. -/
  slot : ∀ x ∈ d.lostBelow n, e.skeleton[x.index]? = some (x.generation + 1, false)
  other_slot : ∀ i, (∀ x ∈ d.lostBelow n, x.index ≠ i) → e.skeleton[i]? = d.skeleton[i]?
  free : e.free = ((d.lostBelow n).map (·.index)).reverse ++ d.free
  size : e.size + (d.lostBelow n).length = d.size

/-- Below the node no text is empty and no two texts stand side by side. -/
structure Tidy (d : Document) (n : NodeId) : Prop where
  not_empty : ∀ c ∈ n :: d.descendants n, ∀ x ∈ d.children c, d.text? x ≠ some ""
  not_adjacent : ∀ c ∈ n :: d.descendants n,
    (d.children c).IsChain fun x y => ¬ (d.isText x = true ∧ d.isText y = true)

/-! ### Merging below a node -/

/-- All runs of children at and below a node. -/
def runsBelow (d : Document) (n : NodeId) : List (List NodeId) :=
  (n :: d.descendants n).flatMap d.textRuns

theorem lost_runsBelow (d : Document) (n : NodeId) : d.lost (d.runsBelow n) = d.lostBelow n := by
  rw [lost, runsBelow, List.flatMap_assoc, lostBelow]

theorem Linked.mem_runsBelow (h : d.Linked) :
    x ∈ (d.runsBelow n).flatten ↔ x ∈ d.descendants n := by
  rw [runsBelow, flatten_flatMap_textRuns, List.mem_flatMap, h.mem_descendants]
  constructor
  · rintro ⟨c, hc, hx⟩
    exact passes_iff.2 ⟨c, h.mem_children.1 hx, h.mem_cons_descendants.1 hc⟩
  · intro hx
    obtain ⟨c, hc, hcn⟩ := passes_iff.1 hx
    exact ⟨c, h.mem_cons_descendants.2 hcn, h.mem_children.2 hc⟩

theorem textRuns_of_leaf (h : d.children c = []) : d.textRuns c = [] := by
  rw [textRuns, h]
  rfl

/-- Texts have no runs of children. -/
theorem Linked.flatMap_textRuns_filter (h : d.Linked) (l : List NodeId) :
    (l.filter fun c => !d.isText c).flatMap d.textRuns = l.flatMap d.textRuns := by
  induction l with
  | nil => rfl
  | cons c l ih =>
    by_cases hc : d.isText c = true
    · rw [List.filter_cons_of_neg (by simp [hc]), ih, List.flatMap_cons,
        textRuns_of_leaf (h.text hc), List.nil_append]
    · rw [List.filter_cons_of_pos (by simpa using hc), List.flatMap_cons, ih, List.flatMap_cons]

theorem normalize_merged (h : d.WellFormed) (he : d.normalize n = .ok e) :
    Merged d (d.runsBelow n)
      (fun c => if c ∈ n :: d.descendants n then d.mergedChildren c else d.children c) e := by
  obtain ⟨hn, rfl⟩ := normalize_eq_ok.1 he
  have hl := h.linked
  have hmem : ∀ c, c ∈ (n :: d.descendants n).filter (fun x => !d.isText x) ↔
      c ∈ n :: d.descendants n ∧ ¬ d.isText c = true := fun c => by
    rw [List.mem_filter]
    simp
  have hm := h.foldl_normalizeOne
    ((hl.nodup_cons_descendants n).filter fun x => !d.isText x) fun c hc =>
      ⟨hl.contains_of_mem_postorder hn (hl.mem_postorder.2 ((hmem c).1 hc).1), ((hmem c).1 hc).2⟩
  rw [hl.flatMap_textRuns_filter] at hm
  have hdown : ∀ c, (if c ∈ (n :: d.descendants n).filter (fun x => !d.isText x) then
        d.mergedChildren c else d.children c) =
      if c ∈ n :: d.descendants n then d.mergedChildren c else d.children c := by
    intro c
    by_cases hc : d.isText c = true
    · have hnone : d.mergedChildren c = d.children c := by
        rw [mergedChildren, textRuns_of_leaf (hl.text hc), hl.text hc]
        rfl
      rw [hnone, ite_self, ite_self]
    · simp only [hmem, and_iff_left hc]
  rw [funext hdown] at hm
  exact hm

/-! ### All else -/

theorem normalize_normalized (h : d.WellFormed) (he : d.normalize n = .ok e) :
    Normalized d n e := by
  have hm := normalize_merged h he
  have hlost := lost_runsBelow d n
  have hthin := Command.thinned_apply h (c := .normalize n) he
  refine ⟨fun c hc => ?_, fun c hc run hrun => hm.kept run (List.mem_flatMap.2 ⟨c, hc, hrun⟩),
    fun x => ?_, fun c hc => ?_, fun x hx => hm.parent? x (by rwa [hlost]), fun x hx => ?_,
    fun x hx => ?_, fun i hi => ?_, ?_, ?_⟩
  · rw [hm.children]
    exact if_pos hc
  · rw [hm.contains_iff, hlost]
  · rw [hm.children]
    exact if_neg hc
  · exact hm.other x (hx.imp_right fun hx => h.linked.mem_runsBelow.not.2 hx)
  · have hgone : x ∈ d.lost (d.runsBelow n) := hlost ▸ hx
    exact hthin.slot_of_gone (contains_of_isText (isText_of_mem_lost hgone))
      fun hlive => ((hm.contains_iff x).1 hlive).2 hgone
  · exact hthin.slot_of_kept fun x hxi hlive =>
      (hm.contains_iff x).2 ⟨hlive, fun hgone => hi x (hlost ▸ hgone) hxi⟩
  · rw [hm.free, hlost]
  · rw [← hm.size, hlost]

/-! ### What is left is tidy -/

theorem isChain_filterMap_keptOf? (kept : List NodeId) (hruns : ∀ run ∈ runs, d.IsRun run)
    (hapart : (kept.head?.toList :: runs).IsChain d.Apart) :
    (kept.head?.toList ++ runs.filterMap d.keptOf?).IsChain
      fun x y => ¬ (d.isText x = true ∧ d.isText y = true) := by
  induction runs generalizing kept with
  | nil => cases kept <;> simp
  | cons run runs ih =>
    have hrest := ih _ (fun r hr => hruns r (List.mem_cons_of_mem run hr))
      (apart_of_kept hapart (hruns run List.mem_cons_self) fun _ _ => rfl)
    cases hk : d.keptOf? run with
    | none =>
      rw [hk] at hrest
      rwa [List.filterMap_cons_none hk]
    | some k =>
      rw [hk] at hrest
      rw [List.filterMap_cons_some hk]
      obtain ⟨hkept, -⟩ := List.isChain_cons_cons.1 hapart
      refine List.isChain_append.2 ⟨?_, hrest, fun x hx y hy => ?_⟩
      · cases kept <;> simp
      · cases hy
        exact hkept x (List.mem_of_getLast? hx) k (keptOf?_mem hk)

theorem normalize_tidy (h : d.WellFormed) (he : d.normalize n = .ok e) (hwe : e.WellFormed) :
    e.Tidy n := by
  have hm := normalize_merged h he
  have hup : ∀ y q, e.parent? y = some q → d.parent? y = some q := fun y q hy =>
    (hm.parent? y ((hm.contains_iff y).1 (contains_of_parent? hy)).2).symm.trans hy
  have hbelow : ∀ c ∈ n :: e.descendants n, c ∈ n :: d.descendants n := fun c hc =>
    h.linked.mem_cons_descendants.2 ((hwe.linked.mem_cons_descendants.1 hc).mono hup)
  have hchildren : ∀ c ∈ n :: e.descendants n, e.children c = d.mergedChildren c := fun c hc => by
    rw [hm.children]
    exact if_pos (hbelow c hc)
  refine ⟨fun c hc x hx => ?_, fun c hc => ?_⟩
  · rw [hchildren c hc, mergedChildren, List.mem_filterMap] at hx
    obtain ⟨run, hrun, hk⟩ := hx
    by_cases htext : d.isText x = true
    · have hrun' : run ∈ d.runsBelow n := List.mem_flatMap.2 ⟨c, hbelow c hc, hrun⟩
      rw [text?_eq_some.2 (hm.kept run hrun' x htext hk)]
      exact fun hs => runText_ne_empty hk htext (Option.some.inj hs)
    · rw [text?, hm.other x (.inl htext), ← text?]
      exact keptOf?_ne hk
  · have hchain := isChain_filterMap_keptOf? [] (fun run hrun => isRun_of_mem hrun)
      (List.isChain_cons.2 ⟨fun _ _ _ hx => absurd hx List.not_mem_nil, isChain_textRuns d c⟩)
    have hback : ∀ {x}, e.isText x = true → d.isText x = true := fun {x} hx => by
      by_contra htext
      rw [hm.isText_eq (.inl htext)] at hx
      exact htext hx
    rw [hchildren c hc]
    exact hchain.imp fun x y hxy hboth => hxy ⟨hback hboth.1, hback hboth.2⟩

/-! ### Normalizing again -/

theorem mergeTexts_of_tidy (hempty : ∀ x ∈ rest, d.text? x ≠ some "")
    (hchain : (kept.head?.toList ++ rest).IsChain
      fun x y => ¬ (d.isText x = true ∧ d.isText y = true)) :
    d.mergeTexts kept rest = (d, kept.reverse ++ rest) := by
  induction rest generalizing kept with
  | nil => rw [mergeTexts, List.append_nil]
  | cons c rest ih =>
    obtain ⟨-, hrest, hlink⟩ := List.isChain_append.1 hchain
    have hkeep : d.mergeTexts kept (c :: rest) = d.mergeTexts (c :: kept) rest := by
      by_cases hc : d.isText c = true
      · obtain ⟨s, hs⟩ := exists_text? hc
        have hne : s ≠ "" := fun h => hempty c List.mem_cons_self (by rw [hs, h])
        refine mergeTexts_first hs hne (fun k hk => text?_eq_none fun hkt => ?_) rest
        exact hlink k (by rw [hk]; rfl) c rfl ⟨hkt, hc⟩
      · exact mergeTexts_other hc kept rest
    have hgo := @ih (c :: kept) (fun x hx => hempty x (List.mem_cons_of_mem c hx)) hrest
    rw [hkeep, hgo, List.reverse_cons, List.append_assoc]
    rfl

theorem normalizeOne_of_tidy (h : d.WellFormed) (hc : d.contains c = true)
    (hempty : ∀ x ∈ d.children c, d.text? x ≠ some "")
    (hchain : (d.children c).IsChain fun x y => ¬ (d.isText x = true ∧ d.isText y = true)) :
    d.normalizeOne c = d := by
  have hl := h.linked
  have horphan := Relinked.orphan d c
  have hloop : (d.orphan c).mergeTexts [] (d.children c) = (d.orphan c, d.children c) := by
    refine mergeTexts_of_tidy (fun x hx => ?_) (hchain.imp fun x y hxy => ?_)
    · rw [text?, horphan.content?]
      exact hempty x hx
    · rw [horphan.isText, horphan.isText]
      exact hxy
  rw [normalizeOne, hloop]
  refine (horphan.trans (.adopt _ c (d.children c))).eq_of_links ?_ ?_
  · rw [parent?_adopt c fun x hx => (horphan.contains x).trans (hl.contains_child hx),
      parent?_orphan fun _ => hl.mem_children]
    funext x
    by_cases hx : d.parent? x = some c
    · rw [if_pos (hl.mem_children.2 hx), hx]
    · rw [if_neg (hl.mem_children.not.2 hx)]
      exact if_neg hx
  · rw [children_adopt ((horphan.contains c).trans hc), children_orphan, Function.update_self,
      Function.update_idem, List.nil_append, Function.update_eq_self]

theorem normalize_of_tidy (h : d.WellFormed) (hn : d.contains n = true) (ht : d.Tidy n) :
    d.normalize n = .ok d := by
  have hfix : ∀ cs : List NodeId, (∀ c ∈ cs, d.normalizeOne c = d) →
      d = cs.foldl normalizeOne d := by
    intro cs
    induction cs with
    | nil => exact fun _ => rfl
    | cons c cs ih =>
      intro hcs
      rw [List.foldl_cons, hcs c List.mem_cons_self]
      exact ih fun c' hc' => hcs c' (List.mem_cons_of_mem c hc')
  refine normalize_eq_ok.2 ⟨hn, hfix _ fun c hc => ?_⟩
  have hc := (List.mem_filter.1 hc).1
  exact normalizeOne_of_tidy h (h.linked.contains_of_mem_postorder hn (h.linked.mem_postorder.2 hc))
    (ht.not_empty c hc) (ht.not_adjacent c hc)

/-! ### All together -/

/-- Every node is merged below, or it has the children it had and none of them is merged. -/
theorem Linked.mergedChildren_or (h : d.Linked) (n x : NodeId) :
    ((if x ∈ n :: d.descendants n then d.mergedChildren x else d.children x) = d.mergedChildren x ∧
        ∀ run ∈ d.textRuns x, run ∈ d.runsBelow n) ∨
      (if x ∈ n :: d.descendants n then d.mergedChildren x else d.children x) = d.children x ∧
        ∀ c ∈ d.children x, c ∉ (d.runsBelow n).flatten := by
  by_cases hx : x ∈ n :: d.descendants n
  · exact .inl ⟨if_pos hx, fun run hrun => List.mem_flatMap.2 ⟨x, hx, hrun⟩⟩
  · refine .inr ⟨if_neg hx, fun c hc hmem => hx ?_⟩
    rw [h.mem_runsBelow, h.mem_descendants] at hmem
    obtain ⟨p, hp, hpn⟩ := passes_iff.1 hmem
    rw [h.mem_children.1 hc, Option.some.injEq] at hp
    exact h.mem_cons_descendants.2 (hp ▸ hpn)

/-- Each node that is no text is equal to what it was, wherever it stands. -/
theorem normalize_equal (h : d.WellFormed) (he : d.normalize n = .ok e) (hwe : e.WellFormed)
    (hlive : d.contains x = true) (hx : ¬ d.isText x = true) : d.equal x e x = true :=
  (normalize_merged h he).equal h hwe (h.linked.mergedChildren_or n) hlive hx

theorem normalize_of_isText (h : d.Linked) (hx : d.isText n = true) : d.normalize n = .ok d := by
  refine normalize_eq_ok.2 ⟨contains_of_isText hx, ?_⟩
  rw [h.descendants_of_isText hx, List.filter_cons_of_neg (by simp [hx])]
  rfl

theorem Linked.equal_self (h : d.Linked) (hx : d.contains x = true) : d.equal x d x = true := by
  obtain ⟨t, ht⟩ := h.exists_shows x hx
  rw [Document.equal, ht.tree?_eq h]
  exact Tree.same_refl _

/-- A live node can be normalized, and the run on the document in place gives the same. -/
theorem WellFormed.exists_normalize (h : d.WellFormed) (hn : d.contains n = true) :
    ∃ e, d.normalize n = .ok e ∧ InPlace.normalize n d = .ok () e ∧ e.WellFormed := by
  obtain ⟨e, he⟩ : ∃ e, d.normalize n = .ok e := ⟨_, normalize_eq_ok.2 ⟨hn, rfl⟩⟩
  have hcarries := InPlace.normalize_carries (x := n) h
  rw [he] at hcarries
  exact ⟨e, he, hcarries.1, hcarries.2⟩

/-- Normalizing a live node merges the texts below it and does nothing else. It leaves the node tidy
and equal to what it was, and the text of every node that is no text, and to do it again does
nothing. -/
theorem normalize_merges (h : Reachable d) (hn : d.contains n = true) :
    ∃ e, d.normalize n = .ok e ∧ InPlace.normalize n d = .ok () e ∧ Normalized d n e ∧
      e.Tidy n ∧ d.equal n e n = true ∧
      (∀ x, d.contains x = true → ¬ d.isText x = true → e.textContent x = d.textContent x) ∧
      e.normalize n = .ok e ∧ InPlace.normalize n e = .ok () e := by
  have hw := wellFormed_of_reachable h
  obtain ⟨e, he, hrun, hwe⟩ := hw.exists_normalize hn
  have htidy := normalize_tidy hw he hwe
  have hequal : d.equal n e n = true := by
    by_cases htext : d.isText n = true
    · cases he.symm.trans (normalize_of_isText hw.linked htext)
      exact hw.linked.equal_self hn
    · exact normalize_equal hw he hwe hn htext
  have hn' : e.contains n = true := by
    obtain ⟨t, u, -, hu, -⟩ := exists_shows_of_equal hw.linked hwe.linked hequal
    exact contains_of_kind? hu.kind?_eq
  have hagain := normalize_of_tidy hwe hn' htidy
  obtain ⟨e', he', hrun', -⟩ := hwe.exists_normalize hn'
  cases he'.symm.trans hagain
  exact ⟨e, he, hrun, normalize_normalized hw he, htidy, hequal,
    fun x hx htext => (alike_of_equal hw hwe (normalize_equal hw he hwe hx htext)).textContent.symm,
    hagain, hrun'⟩

/-- Three texts below an element, of which the first is empty. -/
theorem normalize_merges_three : ∃ d e : Document, d.contains ⟨1, 0⟩ = true ∧
    d.normalize ⟨1, 0⟩ = .ok e ∧ Normalized d ⟨1, 0⟩ e ∧
      d.children ⟨1, 0⟩ = [⟨2, 0⟩, ⟨3, 0⟩, ⟨4, 0⟩] ∧ e.children ⟨1, 0⟩ = [⟨3, 0⟩] ∧
        d.lostBelow ⟨1, 0⟩ = [⟨2, 0⟩, ⟨4, 0⟩] := by
  obtain ⟨d, hd, hlive, hchildren, hkept, hlost⟩ : ∃ d : Document, Reachable d ∧
      d.contains ⟨1, 0⟩ = true ∧ d.children ⟨1, 0⟩ = [⟨2, 0⟩, ⟨3, 0⟩, ⟨4, 0⟩] ∧
        (d.textRuns ⟨1, 0⟩).filterMap d.keptOf? = [⟨3, 0⟩] ∧
          d.lostBelow ⟨1, 0⟩ = [⟨2, 0⟩, ⟨4, 0⟩] := by
    refine ⟨_, .edit (@Reachable.ofSignals .default [.startTag "a" [], .text "r", .text "s",
      .text "t"] _ rfl) (.setText ⟨2, 0⟩ ""), ?_, ?_, ?_, ?_⟩
    · decide +kernel
    · decide +kernel
    · decide +kernel
    · decide +kernel
  obtain ⟨e, he, -, hnormalized, -⟩ := normalize_merges hd hlive
  refine ⟨d, e, hlive, he, hnormalized, hchildren, ?_, hlost⟩
  rw [hnormalized.children _ List.mem_cons_self, hkept]

end MarkupTree.Document
