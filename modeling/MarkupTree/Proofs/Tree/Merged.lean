import MarkupTree.Proofs.Document.Alike
import MarkupTree.Proofs.Document.Merged

/-!
# Trees of merged documents

Merging the texts below some nodes changes no tree as far as equality sees: what takes the place of
a run of texts says what the run says.
-/

namespace MarkupTree

namespace Tree

variable {t : Tree} {ts us : List Tree} {s : String}

/-- Texts before a list of trees go together into one text. -/
theorem foldr_joinText : ∀ {l : List String} (_ : l ≠ []) (ts : List Tree),
    l.foldr joinText ts = joinText (String.join l) ts
  | [s], _, ts => by
    rw [List.foldr_cons, List.foldr_nil, String.join_cons, String.join_nil, String.append_empty]
  | s :: s' :: l, _, ts => by
    rw [List.foldr_cons, foldr_joinText (List.cons_ne_nil s' l), String.join_cons (s := s)]
    cases ts with
    | nil => rfl
    | cons t ts => cases t <;> simp [joinText, String.append_assoc]

theorem normalList_text (s : String) (ts : List Tree) :
    normalList id (.text s :: ts) = joinText s (normalList id ts) := rfl

/-- A list of trees depends on what its trees say. -/
theorem normalList_congr (h : List.Forall₂ (fun u t => u.normal id = t.normal id) us ts) :
    normalList id us = normalList id ts := by
  induction h with
  | nil => rfl
  | cons htu _ ih => rw [normalList, normalList, htu, ih]

end Tree

namespace Document

open MarkupTree.Tree

variable {d e : Document} {x : NodeId} {run xs : List NodeId} {runs : List (List NodeId)}
  {t u : Tree} {ts us : List Tree} {down : NodeId → List NodeId}

theorem Shows.of_text {s : String} (hs : d.Shows t x) (hx : d.content? x = some (.text s)) :
    t = .text s := by
  cases t with
  | text s' =>
    rw [hs.1, Option.some.injEq, Content.text.injEq] at hx
    rw [hx]
  | document ts => rw [hs.1] at hx; cases hx
  | element name as ts => rw [hs.1] at hx; cases hx

theorem ShowsList.nil_iff : d.ShowsList ts [] ↔ ts = [] := by
  cases ts with
  | nil => exact iff_of_true trivial rfl
  | cons => exact iff_of_false id (List.cons_ne_nil _ _)

theorem ShowsList.cons_iff {xs : List NodeId} : d.ShowsList ts (x :: xs) ↔
    ∃ t us, ts = t :: us ∧ d.Shows t x ∧ d.ShowsList us xs := by
  cases ts with
  | nil => exact ⟨False.elim, fun ⟨_, _, h, _⟩ => nomatch h⟩
  | cons t us =>
    constructor
    · exact fun h => ⟨t, us, rfl, h.1, h.2⟩
    · rintro ⟨t', us', heq, h⟩
      cases heq
      exact h

/-- A run of texts says its texts one after the other. -/
theorem ShowsList.normalList_texts (hrun : ∀ y ∈ run, d.isText y = true)
    (hs : d.ShowsList ts (run ++ xs)) : ∃ us, d.ShowsList us xs ∧
      normalList id ts = (run.filterMap d.text?).foldr joinText (normalList id us) := by
  induction run generalizing ts with
  | nil => exact ⟨ts, hs, rfl⟩
  | cons y run ih =>
    obtain ⟨t, ts', rfl, ht, hts⟩ := ShowsList.cons_iff.1 hs
    obtain ⟨us, hus, heq⟩ := ih (fun z hz => hrun z (List.mem_cons_of_mem y hz)) hts
    obtain ⟨s, hy⟩ := exists_text? (hrun y List.mem_cons_self)
    refine ⟨us, hus, ?_⟩
    rw [ht.of_text (text?_eq_some.1 hy), normalList_text, heq, List.filterMap_cons_some hy,
      List.foldr_cons]

theorem Shows.ne_text {s : String} (hs : d.Shows t x) (hx : ¬ d.isText x = true) : t ≠ .text s := by
  rintro rfl
  exact hx (isText_of_text? (text?_eq_some.2 hs.1))

theorem normalList_cons {t : Tree} (ht : ∀ s, t ≠ .text s) (ts : List Tree) :
    normalList id (t :: ts) = t.normal id :: normalList id ts := by
  cases t with
  | text s => exact absurd rfl (ht s)
  | document cs => rfl
  | element name as cs => rfl

/-- What stays of each run says what the run says. -/
theorem saysSame_runs (hruns : ∀ run ∈ runs, d.IsRun run)
    (hkept : ∀ run ∈ runs, ∀ x, d.isText x = true → d.keptOf? run = some x →
      e.content? x = some (.text (d.runText run)))
    (hothers : ∀ x ∈ runs.flatten, ¬ d.isText x = true → ¬ e.isText x = true ∧
      ∀ t u, d.Shows t x → e.Shows u x → u.normal id = t.normal id)
    (hs : d.ShowsList ts runs.flatten) (hs' : e.ShowsList us (runs.filterMap d.keptOf?)) :
    SaysSame (normalList id us) (normalList id ts) := by
  induction runs generalizing ts us with
  | nil =>
    rw [ShowsList.nil_iff.1 hs, ShowsList.nil_iff.1 hs']
    exact ⟨rfl, rfl⟩
  | cons run runs ih =>
    rw [List.flatten_cons] at hs hothers
    have hrest : ∀ {ts us}, d.ShowsList ts runs.flatten →
          e.ShowsList us (runs.filterMap d.keptOf?) →
            SaysSame (normalList id us) (normalList id ts) :=
      ih (fun r hr => hruns r (List.mem_cons_of_mem run hr))
        (fun r hr => hkept r (List.mem_cons_of_mem run hr))
        fun x hx => hothers x (List.mem_append_right run hx)
    cases hruns run List.mem_cons_self with
    | @other x hx =>
      rw [List.filterMap_cons_some (keptOf?_other hx)] at hs'
      obtain ⟨t, ts, rfl, ht, hts⟩ := ShowsList.cons_iff.1 hs
      obtain ⟨u, us, rfl, hu, hus⟩ := ShowsList.cons_iff.1 hs'
      obtain ⟨hxe, hsame⟩ := hothers x (List.mem_append_left _ (List.mem_singleton_self x)) hx
      rw [normalList_cons fun s => hu.ne_text hxe, normalList_cons fun s => ht.ne_text hx,
        hsame t u ht hu]
      exact (hrest hts hus).cons _
    | texts hne hall =>
      obtain ⟨ts, hts, heq⟩ := hs.normalList_texts hall
      have htexts : run.filterMap d.text? ≠ [] := by
        obtain ⟨y, hy⟩ := List.exists_mem_of_ne_nil run hne
        obtain ⟨s, hs⟩ := exists_text? (hall y hy)
        exact List.ne_nil_of_mem (List.mem_filterMap.2 ⟨y, hy, hs⟩)
      rw [heq, foldr_joinText htexts]
      cases hk : d.keptOf? run with
      | none =>
        rw [List.filterMap_cons_none hk] at hs'
        have hempty := runText_of_none hk
        rw [runText] at hempty
        rw [hempty]
        exact (hrest hts hs').joinText_empty
      | some k =>
        rw [List.filterMap_cons_some hk] at hs'
        obtain ⟨u, us, rfl, hu, hus⟩ := ShowsList.cons_iff.1 hs'
        have hcontent := hkept run List.mem_cons_self k (hall k (keptOf?_mem hk)) hk
        rw [hu.of_text hcontent, normalList_text]
        exact (hrest hts hus).joinText _

theorem forall₂_normal {xs : List NodeId} (hs : d.ShowsList ts xs) (hs' : e.ShowsList us xs)
    (hsame : ∀ x ∈ xs, ∀ t u, d.Shows t x → e.Shows u x → u.normal id = t.normal id) :
    List.Forall₂ (fun u t => u.normal id = t.normal id) us ts := by
  induction xs generalizing ts us with
  | nil =>
    rw [ShowsList.nil_iff.1 hs, ShowsList.nil_iff.1 hs']
    exact .nil
  | cons x xs ih =>
    obtain ⟨t, ts, rfl, ht, hts⟩ := ShowsList.cons_iff.1 hs
    obtain ⟨u, us, rfl, hu, hus⟩ := ShowsList.cons_iff.1 hs'
    exact .cons (hsame x List.mem_cons_self t u ht hu)
      (ih hts hus fun y hy => hsame y (List.mem_cons_of_mem x hy))

/-- A tree says what its top and its children say. -/
theorem normal_eq_of_saysSame (hx : ¬ d.isText x = true) (hs : d.Shows t x) (hs' : e.Shows u x)
    (hcontent : e.content? x = d.content? x)
    (h : SaysSame (normalList id u.children) (normalList id t.children)) :
    u.normal id = t.normal id := by
  have hdrop := h.dropEmpty_eq
  cases t with
  | text s => exact absurd rfl (hs.ne_text hx)
  | document ts =>
    have htop := hcontent.trans hs.1
    cases u with
    | document us => exact congrArg Tree.document hdrop
    | element => rw [hs'.1] at htop; cases htop
    | text => rw [hs'.1] at htop; cases htop
  | element name as ts =>
    have htop := hcontent.trans hs.1
    cases u with
    | element name' as' us =>
      rw [hs'.1] at htop
      cases htop
      exact congrArg (Tree.element name as) hdrop
    | document => rw [hs'.1] at htop; cases htop
    | text => rw [hs'.1] at htop; cases htop

/-- Merging changes no tree of a node that is no text, as far as equality sees. -/
theorem Merged.normal_eq (hd : d.WellFormed) (h : Merged d runs down e)
    (hdown : ∀ x, (down x = d.mergedChildren x ∧ ∀ run ∈ d.textRuns x, run ∈ runs) ∨
      down x = d.children x ∧ ∀ c ∈ d.children x, c ∉ runs.flatten)
    (hx : ¬ d.isText x = true) (hs : d.Shows t x) (hs' : e.Shows u x) :
    u.normal id = t.normal id := by
  induction x using hd.linked.down_induction generalizing t u with
  | step x ih =>
    have hts := hs.children
    have hus := hs'.children
    rw [h.children] at hus
    refine normal_eq_of_saysSame hx hs hs' (h.other x (.inl hx)) ?_
    rcases hdown x with ⟨hmerged, hruns⟩ | ⟨hsame, hfar⟩
    · rw [← flatten_textRuns] at hts
      rw [hmerged] at hus
      refine saysSame_runs (fun run hrun => isRun_of_mem hrun)
        (fun run hrun => h.kept run (hruns run hrun)) (fun c hc htext => ?_) hts hus
      rw [flatten_textRuns] at hc
      exact ⟨by rwa [h.isText_eq (.inl htext)], fun t u => ih c hc htext⟩
    · rw [hsame] at hus
      have hnormal := normalList_congr (forall₂_normal hts hus fun c hc t u ht hu => ?_)
      · rw [hnormal]
        exact ⟨rfl, rfl⟩
      · by_cases htext : d.isText c = true
        · obtain ⟨s, hs⟩ := exists_text? htext
          have hcs := text?_eq_some.1 hs
          rw [ht.of_text hcs, hu.of_text ((h.other c (.inr (hfar c hc))).trans hcs)]
        · exact ih c hc htext ht hu

/-- A node that is no text is equal to what it was before. -/
theorem Merged.equal (hd : d.WellFormed) (he : e.WellFormed) (h : Merged d runs down e)
    (hdown : ∀ x, (down x = d.mergedChildren x ∧ ∀ run ∈ d.textRuns x, run ∈ runs) ∨
      down x = d.children x ∧ ∀ c ∈ d.children x, c ∉ runs.flatten)
    (hlive : d.contains x = true) (hx : ¬ d.isText x = true) : d.equal x e x = true := by
  have hlive' : e.contains x = true := (h.contains_eq hx).trans hlive
  obtain ⟨t, ht⟩ := hd.linked.exists_shows x hlive
  obtain ⟨u, hu⟩ := he.linked.exists_shows x hlive'
  rw [Document.equal, ht.tree?_eq hd.linked, hu.tree?_eq he.linked]
  show t.equal u = true
  rw [Tree.equal, h.normal_eq hd hdown hx ht hu, same_refl]

end Document

end MarkupTree
