import MarkupTree.Proofs.Player
import MarkupTree.Proofs.Reachable
import MarkupTree.Proofs.Tree.Grown
import MarkupTree.Proofs.Tree.Prune
import MarkupTree.Tree.Depth

/-!
# From a tree to signals and back

A builder that takes the signals of trees grows these trees, without empty texts, where its next
node goes, and is then as far as before. It stops at the first element that would be too deep.
-/

namespace MarkupTree

open Document

mutual

/-- A tree that can stand below another: no document is in it, and its elements are spelled. -/
def Tree.Inner : Tree → Prop
  | .document _ => False
  | .element name as ts => (Content.element name as).Spelled ∧ Tree.InnerList ts
  | .text _ => True

def Tree.InnerList : List Tree → Prop
  | [] => True
  | t :: ts => t.Inner ∧ Tree.InnerList ts

end

namespace Document

variable {d : Document} {x : NodeId}

mutual

/-- What stands below a node is no document. -/
theorem Shows.inner (h : d.WellFormed) : ∀ {t : Tree} {x : NodeId}, d.Shows t x →
    ¬ d.isDocument x = true → t.Inner
  | .document ts, x, hs, hx => by
    refine hx (isDocument_iff.2 (kind?_eq_some_document.2 hs.1))
  | .element name as ts, x, hs, _ => by
    refine ⟨h.spelled hs.1, ShowsList.inner h hs.2 fun c hc => ?_⟩
    exact h.linked.not_isDocument_child (h.linked.mem_children.1 hc)
  | .text s, _, _, _ => trivial

theorem ShowsList.inner (h : d.WellFormed) : ∀ {ts : List Tree} {xs : List NodeId},
    d.ShowsList ts xs → (∀ x ∈ xs, ¬ d.isDocument x = true) → Tree.InnerList ts
  | [], [], _, _ => trivial
  | t :: ts, x :: xs, hs, hx => by
    refine ⟨Shows.inner h hs.1 (hx x List.mem_cons_self), ?_⟩
    exact ShowsList.inner h hs.2 fun y hy => hx y (List.mem_cons_of_mem x hy)

end

end Document

namespace Builder

variable {b : Builder} {ts us : List Tree}

/-- Taking the signals grows the trees if there is room for their depth, and if not they are
refused. -/
def Takes (b : Builder) (ts : List Tree) (signals : List Signal) : Prop :=
  (b.depth + Tree.depthOfList ts ≤ b.config.maxDepth ∧
    ∃ d, signals.foldlM push b = .ok { b with document := d } ∧
      Grown b.document d b.current (Tree.pruneList ts)) ∨
  (b.config.maxDepth < b.depth + Tree.depthOfList ts ∧
    signals.foldlM push b = .error (.tooDeep (b.config.maxDepth + 1) b.config.maxDepth))

theorem takes_nil (h : b.depth ≤ b.config.maxDepth) : b.Takes [] [] :=
  .inl ⟨h, b.document, rfl, .refl _ _⟩

/-- Trees one after the other. -/
theorem Takes.append {as bs : List Signal} (hb : b.Sound) (h : b.Takes ts as)
    (h' : ∀ d, ({ b with document := d } : Builder).Sound →
      ({ b with document := d } : Builder).Takes us bs) :
    b.Takes (ts ++ us) (as ++ bs) := by
  unfold Takes
  rw [Tree.depthOfList_append, Tree.pruneList_append, List.foldlM_append]
  rcases h with ⟨hroom, d, hrun, hgrown⟩ | ⟨hroom, hrun⟩
  · have hsound := hb.foldlM hrun
    rw [hrun]
    rcases h' d hsound with ⟨hroom', e, hrun', hgrown'⟩ | ⟨hroom', hrun'⟩
    · refine .inl ⟨by simp only [depth] at hroom hroom' ⊢; omega, e, hrun', ?_⟩
      exact hgrown.append hsound.wellFormed.linked hgrown'
    · exact .inr ⟨by simp only [depth] at hroom hroom' ⊢; omega, hrun'⟩
  · refine .inr ⟨by omega, ?_⟩
    rw [hrun]
    rfl

theorem exists_push_text (hb : b.Sound) (hdrop : b.config.dropBlankText = false) {s : String}
    (hs : ¬ s.isEmpty = true) : ∃ d x, Added b.document d b.current (.text s) x ∧
      b.push (.text s) = .ok { b with document := d } := by
  have hadd := hb.wellFormed.stored.added hb.contains_current (.text s)
  refine ⟨_, _, hadd, ?_⟩
  rw [push, hdrop, Bool.false_and, Bool.or_false, if_neg hs]
  rfl

theorem exists_push_startTag (hb : b.Sound) (hlt : b.depth < b.config.maxDepth) {name : String}
    {as : List Attribute} (hs : (Content.element name as).Spelled) :
    ∃ d x, Added b.document d b.current (.element name as) x ∧
      b.push (.startTag name as) = .ok { b with document := d, opened := x :: b.opened } := by
  have hadd := hb.wellFormed.stored.added hb.contains_current (.element name as)
  refine ⟨_, _, hadd, ?_⟩
  rw [push, if_neg (Nat.not_le.2 hlt), createElement, hs.1, Attribute.keepFirst_of_nodup hs.2]

theorem takes_text (hb : b.Sound) (hdrop : b.config.dropBlankText = false)
    (hle : b.depth ≤ b.config.maxDepth) (s : String) : b.Takes [.text s] [.text s] := by
  refine .inl ⟨hle, ?_⟩
  by_cases hs : (Tree.text s).isEmptyText = true
  · rw [Tree.pruneList_cons_of_isEmptyText hs]
    rw [Tree.isEmptyText] at hs
    have hpush : b.push (.text s) = .ok b := by rw [push, hs]; rfl
    refine ⟨b.document, ?_, .refl _ _⟩
    rw [List.foldlM_cons, hpush]
    rfl
  · rw [Tree.pruneList_cons_of_not hs]
    rw [Tree.isEmptyText] at hs
    obtain ⟨d, x, hadd, hpush⟩ := exists_push_text hb hdrop hs
    refine ⟨d, ?_, hadd.grown_text hb.contains_current rfl⟩
    rw [List.foldlM_cons, hpush]
    rfl

/-- The end tag of the innermost open element closes just this element. -/
theorem close_innermost {x : NodeId} {xs : List NodeId} {name : String}
    (ho : b.opened = x :: xs) (hx : b.document.name? x = some name) :
    b.close name = .ok { b with opened := xs } := by
  have hidx : b.opened.findIdx? (fun id => b.document.name? id == some name) = some 0 := by
    rw [ho, List.findIdx?_cons, hx, beq_self_eq_true, if_pos rfl]
  rw [close, hidx]
  simp [ho]

/-- An element: its start tag opens a new node, and as this node is the innermost open element when
the end tag comes, the end tag closes it and nothing else. -/
theorem takes_element (hb : b.Sound) (hle : b.depth ≤ b.config.maxDepth) {name : String}
    {as : List Attribute} {signals : List Signal} (hspelled : (Content.element name as).Spelled)
    (hinner : ∀ c : Builder, c.Sound → c.config = b.config → c.depth ≤ c.config.maxDepth →
      c.Takes ts signals) :
    b.Takes [.element name as ts] (.startTag name as :: (signals ++ [.endTag name])) := by
  unfold Takes
  rw [Tree.depthOfList_singleton, Tree.elementDepth]
  rcases Nat.lt_or_ge b.depth b.config.maxDepth with hlt | hge
  · obtain ⟨d, x, hadd, hpush⟩ := exists_push_startTag hb hlt hspelled
    have hsound := hb.push hpush
    have hfold : (.startTag name as :: (signals ++ [.endTag name])).foldlM push b =
        signals.foldlM push { b with document := d, opened := x :: b.opened } >>=
          fun c => [.endTag name].foldlM push c := by
      rw [List.foldlM_cons, hpush]
      exact List.foldlM_append
    rw [hfold]
    rcases hinner _ hsound rfl hlt with ⟨hroom, e, hrun, hgrown⟩ | ⟨hroom, hrun⟩
    · refine .inl ⟨?_, e, ?_, ?_⟩
      · simp only [depth, List.length_cons] at hroom ⊢
        omega
      · have hname : e.name? x = some name := by
          rw [name?, hgrown.content x hadd.contains_self, hadd.content_self]
          rfl
        rw [hrun]
        show Builder.push _ (.endTag name) >>= pure = _
        rw [push, hspelled.1, close_innermost rfl hname]
        rfl
      · rw [Tree.pruneList_element]
        exact hadd.grown_element hb.contains_current rfl hgrown
    · refine .inr ⟨?_, ?_⟩
      · simp only [depth, List.length_cons] at hroom ⊢
        omega
      · rw [hrun]
        rfl
  · refine .inr ⟨by omega, ?_⟩
    rw [List.foldlM_cons, push, if_pos hge, Nat.le_antisymm hle hge]
    rfl

mutual

theorem takes_signals : ∀ (t : Tree) {b : Builder}, b.Sound → b.config.dropBlankText = false →
    b.depth ≤ b.config.maxDepth → t.Inner → b.Takes [t] t.signals
  | .document _, _, _, _, _, ht => ht.elim
  | .element name as ts, b, hb, hdrop, hle, ht =>
    takes_element hb hle ht.1 fun c hc hconfig hle =>
      takes_signalsOfList ts hc (by rw [hconfig, hdrop]) hle ht.2
  | .text s, b, hb, hdrop, hle, _ => takes_text hb hdrop hle s

theorem takes_signalsOfList : ∀ (ts : List Tree) {b : Builder}, b.Sound →
    b.config.dropBlankText = false → b.depth ≤ b.config.maxDepth → Tree.InnerList ts →
    b.Takes ts (Tree.signalsOfList ts)
  | [], _, _, _, hle, _ => takes_nil hle
  | t :: ts, b, hb, hdrop, hle, hts => by
    refine (takes_signals t hb hdrop hle hts.1).append hb fun d hd => ?_
    exact takes_signalsOfList ts hd hdrop hle hts.2

end

/-- With nothing open, a strict builder has nothing to refuse at the end. -/
theorem finish_of_opened (ho : b.opened = []) : b.finish = .ok b.document := by
  have hopen : ¬ (b.config.strict && !b.opened.isEmpty) = true := by simp [ho]
  rw [finish, if_neg hopen]

end Builder

namespace Tree

/-- The trees that stand for a tree below a document node: a document stands for what is in it. -/
def branches : Tree → List Tree
  | .document ts => ts
  | t => [t]

theorem signalsOfList_branches (t : Tree) : signalsOfList t.branches = t.signals := by
  cases t with
  | document ts => rfl
  | element name as ts => exact List.append_nil _
  | text s => rfl

theorem depthOfList_branches (t : Tree) : depthOfList t.branches = t.elementDepth := by
  cases t with
  | document ts => rfl
  | element name as ts => exact depthOfList_singleton _
  | text s => exact depthOfList_singleton _

end Tree

namespace Document

variable {d e : Document} {x : NodeId} {config : Config} {ts : List Tree}

theorem Shows.innerList_branches (h : d.WellFormed) {t : Tree} (hs : d.Shows t x) :
    Tree.InnerList t.branches := by
  cases t with
  | document ts =>
    refine ShowsList.inner h hs.2 fun c hc => ?_
    exact h.linked.not_isDocument_child (h.linked.mem_children.1 hc)
  | element name as ts =>
    refine ⟨Shows.inner h hs (not_isDocument_of_isElement ?_), trivial⟩
    rw [isElement_iff, kind?, hs.1]
    rfl
  | text s => exact ⟨trivial, trivial⟩

/-- What the signals of trees are built to: a document of these trees without empty texts, or
nothing if the trees are too deep. -/
theorem ofSignals_signalsOfList (hdrop : config.dropBlankText = false)
    (hts : Tree.InnerList ts) :
    (Tree.depthOfList ts ≤ config.maxDepth ∧
      ∃ e, ofSignals config (Tree.signalsOfList ts) = .ok e ∧ e.WellFormed ∧
        e.Shows (.document (Tree.pruneList ts)) .root) ∨
    (config.maxDepth < Tree.depthOfList ts ∧ ofSignals config (Tree.signalsOfList ts) =
      .error (.tooDeep (config.maxDepth + 1) config.maxDepth)) := by
  have hdepth : (Builder.new config).depth + Tree.depthOfList ts = Tree.depthOfList ts :=
    Nat.zero_add _
  have htakes := Builder.takes_signalsOfList ts (Builder.sound_new config) hdrop
    (Nat.zero_le _) hts
  rw [Builder.Takes, hdepth] at htakes
  rcases htakes with ⟨hroom, e, hrun, hgrown⟩ | ⟨hroom, hrun⟩
  · have hfinish : ofSignals config (Tree.signalsOfList ts) = .ok e := by
      rw [ofSignals, hrun]
      exact Builder.finish_of_opened rfl
    obtain ⟨ids, hids, hshows⟩ := hgrown.appended
    have hchildren : e.children .root = ids := hids
    refine .inl ⟨hroom, e, hfinish, wellFormed_ofSignals hfinish, ?_, ?_⟩
    · exact hgrown.content .root wellFormed_new.contains_root
    · rw [hchildren]
      exact hshows
  · refine .inr ⟨hroom, ?_⟩
    rw [ofSignals, hrun]
    rfl

/-- `e` is a copy of the node `x` below its document node, as far as signals and equality tell:
empty texts are missing. -/
structure Copies (d : Document) (x : NodeId) (e : Document) : Prop where
  signals : e.signals .root = (d.signals x).filter fun s => s != .text ""
  document : d.isDocument x = true → d.equal x e .root = true
  element : d.isElement x = true → ∃ y, e.children .root = [y] ∧ d.equal x e y = true

theorem Shows.eq_document {t : Tree} (hs : d.Shows t x) (hx : d.isDocument x = true) :
    ∃ ts, t = .document ts := by
  rw [isDocument_iff, kind?] at hx
  cases t with
  | document ts => exact ⟨ts, rfl⟩
  | element name as ts => rw [hs.1] at hx; cases hx
  | text s => rw [hs.1] at hx; cases hx

theorem Shows.eq_element {t : Tree} (hs : d.Shows t x) (hx : d.isElement x = true) :
    ∃ name as ts, t = .element name as ts := by
  rw [isElement_iff, kind?] at hx
  cases t with
  | document ts => rw [hs.1] at hx; cases hx
  | element name as ts => exact ⟨name, as, ts, rfl⟩
  | text s => rw [hs.1] at hx; cases hx

theorem ShowsList.eq_singleton {t : Tree} {xs : List NodeId} (hs : d.ShowsList [t] xs) :
    ∃ y, xs = [y] ∧ d.Shows t y := by
  cases xs with
  | nil => exact absurd hs id
  | cons y ys =>
    obtain ⟨hy, hys⟩ := hs
    rw [showsList_nil.1 hys]
    exact ⟨y, rfl, hy⟩

theorem Shows.copies (hd : d.Linked) (he : e.Linked) {t : Tree} (hs : d.Shows t x)
    (hr : e.Shows (.document (Tree.pruneList t.branches)) .root) : d.Copies x e := by
  have ht := hs.tree?_eq hd
  have hroot := hr.tree?_eq he
  refine ⟨?_, fun hx => ?_, fun hx => ?_⟩
  · rw [signals, hroot, signals, ht]
    show Tree.signalsOfList _ = _
    rw [Tree.signalsOfList_pruneList, Tree.signalsOfList_branches]
  · obtain ⟨ts, rfl⟩ := hs.eq_document hx
    rw [equal, ht, hroot]
    exact Tree.equal_prune (.document ts)
  · obtain ⟨name, as, ts, rfl⟩ := hs.eq_element hx
    obtain ⟨y, hy, hshows⟩ := ShowsList.eq_singleton (t := .element name as (Tree.pruneList ts)) hr.2
    refine ⟨y, hy, ?_⟩
    rw [equal, ht, hshows.tree?_eq he]
    exact Tree.equal_prune (.element name as ts)

/-- A node is played back as signals from which a builder that keeps blank texts makes a copy,
if the elements at and below the node are not nested too deeply. If they are, the builder stops at
the first element that is too deep. -/
theorem ofSignals_signals (h : Reachable d) (hx : d.contains x = true) (config : Config)
    (hdrop : config.dropBlankText = false) :
    d.Plays [.enter x] (d.signals x) ∧
    ((∃ e, ofSignals config (d.signals x) = .ok e) ↔ d.elementDepth x ≤ config.maxDepth) ∧
    (¬ d.elementDepth x ≤ config.maxDepth → ofSignals config (d.signals x) =
      .error (.tooDeep (config.maxDepth + 1) config.maxDepth)) ∧
    ∀ e, ofSignals config (d.signals x) = .ok e → d.Copies x e := by
  have hw := wellFormed_of_reachable h
  obtain ⟨t, hs⟩ := hw.linked.exists_shows x hx
  have ht := hs.tree?_eq hw.linked
  have hsignals : d.signals x = Tree.signalsOfList t.branches := by
    rw [signals, ht, Tree.signalsOfList_branches]
  have hdepth : d.elementDepth x = Tree.depthOfList t.branches := by
    rw [elementDepth, ht, Tree.depthOfList_branches]
  refine ⟨hw.linked.plays_iff.2 rfl, ?_⟩
  rw [hsignals, hdepth]
  rcases ofSignals_signalsOfList hdrop (hs.innerList_branches hw) with
    ⟨hroom, e, he, hwe, hr⟩ | ⟨hroom, herror⟩
  · refine ⟨iff_of_true ⟨e, he⟩ hroom, fun hdeep => absurd hroom hdeep, fun e' he' => ?_⟩
    rw [he, Except.ok.injEq] at he'
    rw [← he']
    exact hs.copies hw.linked hwe.linked hr
  · have hdeep : ¬ Tree.depthOfList t.branches ≤ config.maxDepth := Nat.not_le.2 hroom
    refine ⟨iff_of_false ?_ hdeep, fun _ => herror, fun e he => ?_⟩
    · rintro ⟨e, he⟩
      rw [herror] at he
      cases he
    · rw [herror] at he
      cases he

/-- Elements of one name below each other, the outer one with an empty text between two texts. Just
as much room as they need is enough for a copy, and the copy has no empty text; with less room they
are too deep. -/
theorem ofSignals_signals_nested : ∃ d e : Document, Reachable d ∧
    d.children ⟨1, 0⟩ = [⟨2, 0⟩, ⟨6, 0⟩, ⟨3, 0⟩, ⟨4, 0⟩] ∧ d.elementDepth ⟨1, 0⟩ = 3 ∧
      d.signals ⟨1, 0⟩ = [.startTag "b" [], .text "a", .text "", .text "c", .startTag "b" [],
        .startTag "b" [], .endTag "b", .endTag "b", .endTag "b"] ∧
      ofSignals ⟨true, 3, false⟩ (d.signals ⟨1, 0⟩) = .ok e ∧ d.Copies ⟨1, 0⟩ e ∧
        e.signals .root = [.startTag "b" [], .text "a", .text "c", .startTag "b" [],
          .startTag "b" [], .endTag "b", .endTag "b", .endTag "b"] ∧
        ofSignals ⟨true, 2, false⟩ (d.signals ⟨1, 0⟩) = .error (.tooDeep 3 2) := by
  obtain ⟨d, hd, hx, hchildren, hdepth, hsignals⟩ : ∃ d : Document, Reachable d ∧
      d.contains ⟨1, 0⟩ = true ∧ d.children ⟨1, 0⟩ = [⟨2, 0⟩, ⟨6, 0⟩, ⟨3, 0⟩, ⟨4, 0⟩] ∧
        d.elementDepth ⟨1, 0⟩ = 3 ∧
          d.signals ⟨1, 0⟩ = [.startTag "b" [], .text "a", .text "", .text "c",
            .startTag "b" [], .startTag "b" [], .endTag "b", .endTag "b", .endTag "b"] := by
    -- A builder makes no empty text, so it is put in afterwards.
    have hbuilt := @Reachable.ofSignals .default [.startTag "b" [], .text "a", .text "c",
      .startTag "b" [], .startTag "b" [], .endTag "b", .endTag "b", .endTag "b"] _ rfl
    refine ⟨_, (hbuilt.createText "").edit (.insertAfter ⟨2, 0⟩ ⟨6, 0⟩), ?_, ?_, ?_, ?_⟩
    · decide +kernel
    · decide +kernel
    · decide +kernel
    · decide +kernel
  obtain ⟨-, hroom, -, hcopies⟩ := ofSignals_signals hd hx ⟨true, 3, false⟩ rfl
  obtain ⟨-, -, hdeep, -⟩ := ofSignals_signals hd hx ⟨true, 2, false⟩ rfl
  obtain ⟨e, he⟩ := hroom.2 (Nat.le_of_eq hdepth)
  have hcopy := hcopies e he
  refine ⟨d, e, hd, hchildren, hdepth, hsignals, he, hcopy, ?_, hdeep (by rw [hdepth]; decide)⟩
  rw [hcopy.signals, hsignals]
  decide

end Document

end MarkupTree
