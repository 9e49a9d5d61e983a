import MarkupTree.Proofs.Document.TextRuns

/-!
# What merging does

Going through a run of texts reclaims all of them but one, which takes up the text of the run. Going
through the runs one after the other does this to each, and merging below one node after the other
does it to the runs of all of them: every text is in one run only.
-/

namespace MarkupTree.Document

variable {d e f : Document} {x y c p k : NodeId} {run pre cs kept rest gone gone' : List NodeId}
  {runs runs' : List (List NodeId)} {write write' : NodeId → Option String} {s : String}
  {down down' : NodeId → List NodeId}

/-! ### Reclaimed nodes and new texts -/

/-- The node with another text, if there is one. -/
def rewritten (text? : Option String) (node : Node) : Node :=
  match text? with
  | some s => { node with content := .text s }
  | none => node

/-- `e` is `d` without the nodes `gone`, and with the texts that `write` gives to nodes. -/
structure Rewritten (d : Document) (gone : List NodeId) (write : NodeId → Option String)
    (e : Document) : Prop where
  get? : ∀ x, e.get? x = if x ∈ gone then none else (d.get? x).map (rewritten (write x))
  free : e.free = (gone.map (·.index)).reverse ++ d.free
  size : e.size + gone.length = d.size

namespace Rewritten

theorem refl (d : Document) : Rewritten d [] (fun _ => none) d := by
  refine ⟨fun x => ?_, rfl, rfl⟩
  cases d.get? x <;> rfl

theorem trans (h : Rewritten d gone write e) (h' : Rewritten e gone' write' f) :
    Rewritten d (gone ++ gone') (fun x => (write' x).or (write x)) f := by
  refine ⟨fun x => ?_, ?_, ?_⟩
  · rw [h'.get?, h.get?]
    by_cases hx : x ∈ gone
    · simp [hx]
    · by_cases hx' : x ∈ gone'
      · simp [hx']
      · rw [if_neg hx, if_neg hx', if_neg (by simp [hx, hx']), Option.map_map]
        congr 1
        funext node
        cases write' x <;> cases write x <;> rfl
  · rw [h'.free, h.free, List.map_append, List.reverse_append, List.append_assoc]
  · rw [← h.size, ← h'.size, List.length_append]
    omega

/-- A text is given that the node has anyway. -/
theorem congr (h : Rewritten d gone write e)
    (hwrite : ∀ x, write' x = write x ∨
      write x = none ∧ ∃ s, write' x = some s ∧ d.text? x = some s) :
    Rewritten d gone write' e := by
  refine ⟨fun x => ?_, h.free, h.size⟩
  rw [h.get?]
  rcases hwrite x with hsame | ⟨hnone, s, hs, htext⟩
  · rw [hsame]
  · rw [hnone, hs]
    congr 1
    cases hnode : d.get? x with
    | none => rfl
    | some node =>
      rw [text?, content?, hnode] at htext
      have hcontent : node.content = .text s := by
        cases hc : node.content <;> simp_all [Content.text?]
      show some node = some { node with content := .text s }
      rw [← hcontent]

theorem setContent (hx : d.contains x = true) (s : String) :
    Rewritten d [] (Function.update (fun _ => none) x (some s)) (d.setContent x (.text s)) := by
  refine ⟨fun y => ?_, rfl, rfl⟩
  by_cases hy : y = x
  · subst hy
    rw [Function.update_self, Document.setContent, get?_modify_self]
    rfl
  · rw [Function.update_of_ne hy, Document.setContent, get?_modify_of_ne hy]
    cases d.get? y <;> rfl

theorem reclaim (h : d.WellFormed) (hx : d.isText x = true) :
    Rewritten d [x] (fun _ => none) (d.reclaim x) := by
  have hl := h.linked
  have hlive := contains_of_isText hx
  have hbelow := hl.descendants_of_isText hx
  have horder : d.postorder x = [x] := by rw [hl.postorder_eq, hl.text hx]; rfl
  refine ⟨fun y => ?_, ?_, ?_⟩
  · rw [hl.get?_reclaim hlive, hbelow]
    cases d.get? y <;> rfl
  · rw [hl.free_reclaim hlive, horder]
    rfl
  · have hsize := hl.size_reclaim h.stored hlive
    rwa [hbelow] at hsize

variable (h : Rewritten d gone write e)
include h

theorem contains_iff : e.contains x = true ↔ d.contains x = true ∧ x ∉ gone := by
  rw [contains, contains, h.get?]
  by_cases hx : x ∈ gone <;> simp [hx]

theorem content?_eq (hx : x ∉ gone) :
    e.content? x = (d.content? x).map fun c => ((write x).map .text).getD c := by
  rw [content?, content?, h.get?, if_neg hx, Option.map_map, Option.map_map]
  congr 1
  funext node
  cases write x <;> rfl

theorem content?_same (hx : x ∉ gone) (hw : write x = none) : e.content? x = d.content? x := by
  rw [h.content?_eq hx, hw]
  exact Option.map_id'

theorem content?_written (hlive : d.contains x = true) (hx : x ∉ gone) (hw : write x = some s) :
    e.content? x = some (.text s) := by
  obtain ⟨c, hc⟩ := contains_iff_content?.1 hlive
  rw [h.content?_eq hx, hw, hc]
  rfl

theorem parent?_eq (hx : x ∉ gone) : e.parent? x = d.parent? x := by
  rw [parent?, parent?, h.get?, if_neg hx, Option.bind_map]
  congr 1
  funext node
  cases write x <;> rfl

theorem children_eq (hx : x ∉ gone) : e.children x = d.children x := by
  rw [children_eq_getD, children_eq_getD, h.get?, if_neg hx, Option.map_map]
  congr 2
  funext node
  cases write x <;> rfl

end Rewritten

/-! ### One step of the loop -/

section
variable (hc : d.text? c = some s)
include hc

theorem mergeTexts_empty (hs : s = "") (kept rest : List NodeId) :
    d.mergeTexts kept (c :: rest) = (d.reclaim c).mergeTexts kept rest := by
  rw [mergeTexts, hc, hs]
  rfl

theorem mergeTexts_first (hs : s ≠ "") (hkept : ∀ k, kept.head? = some k → d.text? k = none)
    (rest : List NodeId) : d.mergeTexts kept (c :: rest) = d.mergeTexts (c :: kept) rest := by
  have hs' : ¬ s.isEmpty = true := fun h => hs (String.isEmpty_iff.1 h)
  rw [mergeTexts, hc]
  dsimp only
  rw [if_neg hs']
  cases kept with
  | nil => rfl
  | cons k kept =>
    dsimp only
    rw [hkept k rfl]

theorem mergeTexts_next (hs : s ≠ "") {t : String} (hk : d.text? k = some t)
    (kept rest : List NodeId) : d.mergeTexts (k :: kept) (c :: rest) =
      ((d.setContent k (.text (t ++ s))).reclaim c).mergeTexts (k :: kept) rest := by
  have hs' : ¬ s.isEmpty = true := fun h => hs (String.isEmpty_iff.1 h)
  rw [mergeTexts, hc]
  dsimp only
  rw [if_neg hs', hk]

end

theorem mergeTexts_other (hc : ¬ d.isText c = true) (kept rest : List NodeId) :
    d.mergeTexts kept (c :: rest) = d.mergeTexts (c :: kept) rest := by
  rw [mergeTexts, text?_eq_none hc]

/-! ### One run -/

/-- The text that the node takes up that stays of a run of texts. -/
def written (d : Document) (run : List NodeId) (x : NodeId) : Option String :=
  if d.keptOf? run = some x then some (d.runText run) else none

theorem written_of_not_mem (hx : x ∉ run) : d.written run x = none :=
  if_neg fun h => hx (keptOf?_mem h)

theorem mem_of_mem_lostOf (hx : x ∈ d.lostOf run) : x ∈ run := (mem_lostOf.1 hx).1

/-- The state of the loop within a run of texts of which `pre` have been gone through. -/
structure Reading (d : Document) (p : NodeId) (pre kept rest : List NodeId) (e : Document) :
    Prop where
  rewritten : Rewritten d (d.lostOf pre) (d.written pre) e
  merging : e.Merging p ((d.keptOf? pre).toList ++ kept) rest

/-- The next text of a run is lost, or it is the first that stays. -/
theorem Reading.next (h : Reading d p pre kept (c :: rest) e) (hc : d.isText c = true)
    (hnew : c ∉ pre) (hkept : ∀ k, kept.head? = some k → e.text? k = none) :
    ∃ e', Reading d p (pre ++ [c]) kept rest e' ∧
      e.mergeTexts ((d.keptOf? pre).toList ++ kept) (c :: rest) =
        e'.mergeTexts ((d.keptOf? (pre ++ [c])).toList ++ kept) rest := by
  obtain ⟨hr, hm⟩ := h
  obtain ⟨s, hs⟩ := exists_text? hc
  have hcontent : e.content? c = d.content? c :=
    hr.content?_same (fun hl => hnew (mem_of_mem_lostOf hl)) (written_of_not_mem hnew)
  have hce : e.isText c = true := by rw [isText, kind?, hcontent]; exact hc
  have hse : e.text? c = some s := by rw [text?, hcontent]; exact hs
  by_cases hempty : s = ""
  · have hk : d.keptOf? (pre ++ [c]) = d.keptOf? pre := keptOf?_concat_empty hs hempty
    refine ⟨e.reclaim c, ⟨?_, by rw [hk]; exact hm.reclaim hce⟩, ?_⟩
    · have hreclaim := hr.trans (.reclaim hm.wellFormed hce)
      rw [lostOf_concat hs hk hnew]
      refine hreclaim.congr fun x => .inl ?_
      rw [written, hk, runText_concat hs, hempty, String.append_empty]
      rfl
    · rw [mergeTexts_empty hse hempty, hk]
  cases hpre : d.keptOf? pre with
  | none =>
    have hk := keptOf?_concat_first hs hempty hpre
    rw [hpre] at hm
    refine ⟨e, ⟨?_, by rw [hk]; exact hm.keep⟩, ?_⟩
    · rw [lostOf_concat_first hs hempty hpre hnew]
      refine hr.congr fun x => ?_
      rw [written, written, hk, hpre, runText_concat hs, runText_of_none hpre, String.empty_append]
      by_cases hx : c = x
      · subst hx
        exact .inr ⟨rfl, s, by simp, hs⟩
      · exact .inl (by simp [hx])
    · rw [hk]
      exact mergeTexts_first hse hempty hkept rest
  | some k =>
    have hk := keptOf?_concat_next hpre c
    have hkc : k ≠ c := fun e => hnew (e ▸ keptOf?_mem hpre)
    rw [hpre] at hm
    have hlive := (hm.loose k List.mem_cons_self).insertable.child
    have hke : e.text? k = some (d.runText pre) := by
      rw [text?, hr.content?_written (hr.contains_iff.1 hlive).1 (hr.contains_iff.1 hlive).2
        (if_pos hpre)]
      rfl
    have hkt := isText_of_text? hke
    have hset := hm.setText hkt (d.runText pre ++ s)
    have hcset : (e.setContent k (.text (d.runText pre ++ s))).isText c = true := by
      rw [isText, kind?_setContent (isText_iff.1 hkt)]
      exact hce
    refine ⟨_, ⟨?_, by rw [hk]; exact hset.reclaim hcset⟩, ?_⟩
    · have hnext := (hr.trans (.setContent (contains_of_isText hkt) (d.runText pre ++ s))).trans
        (.reclaim hset.wellFormed hcset)
      rw [List.append_nil] at hnext
      rw [lostOf_concat hs (hk.trans hpre.symm) hnew]
      refine hnext.congr fun x => .inl ?_
      rw [written, written, hk, hpre, runText_concat hs]
      by_cases hx : x = k
      · subst hx
        simp
      · simp [hx, Ne.symm hx]
    · rw [hk]
      exact mergeTexts_next hse hempty hke _ _

/-- A run of texts is gone through to its end. -/
theorem Reading.all (h : Reading d p pre kept (cs ++ rest) e)
    (hd : ∀ c ∈ pre ++ cs, d.isText c = true) (hnd : (pre ++ cs).Nodup)
    (hkept : ∀ k, kept.head? = some k → ¬ d.isText k = true) :
    ∃ e', Reading d p (pre ++ cs) kept rest e' ∧
      e.mergeTexts ((d.keptOf? pre).toList ++ kept) (cs ++ rest) =
        e'.mergeTexts ((d.keptOf? (pre ++ cs)).toList ++ kept) rest := by
  induction cs generalizing pre e with
  | nil => exact ⟨e, by rwa [List.append_nil], by rw [List.append_nil]; rfl⟩
  | cons c cs ih =>
    have hc : d.isText c = true := hd c (List.mem_append_right pre List.mem_cons_self)
    have hnew : c ∉ pre := fun hmem =>
      List.disjoint_of_nodup_append hnd hmem List.mem_cons_self
    -- What was kept before the run is no text and has not changed.
    have hhead : ∀ k, kept.head? = some k → e.text? k = none := by
      intro k hk
      cases htext : e.text? k with
      | none => rfl
      | some s =>
        have hlive := h.rewritten.contains_iff.1 (contains_of_isText (isText_of_text? htext))
        have hpre : k ∉ pre := fun hmem => hkept k hk (hd k (List.mem_append_left _ hmem))
        rw [text?, h.rewritten.content?_same hlive.2 (written_of_not_mem hpre)] at htext
        exact absurd (isText_of_text? htext) (hkept k hk)
    obtain ⟨e₁, h₁, heq₁⟩ := h.next hc hnew hhead
    rw [List.append_cons] at hd hnd ⊢
    obtain ⟨e₂, h₂, heq₂⟩ := ih h₁ hd hnd
    exact ⟨e₂, h₂, heq₁.trans heq₂⟩

/-! ### All runs -/

/-- `e` is `d` with each of the runs merged; of the links only those of lost nodes are gone, but
the children of a node are as `down` tells. -/
structure Merged (d : Document) (runs : List (List NodeId)) (down : NodeId → List NodeId)
    (e : Document) : Prop where
  contains_iff : ∀ x, e.contains x = true ↔ d.contains x = true ∧ x ∉ d.lost runs
  parent? : ∀ x, x ∉ d.lost runs → e.parent? x = d.parent? x
  children : e.children = down
  kept : ∀ run ∈ runs, ∀ x, d.isText x = true → d.keptOf? run = some x →
    e.content? x = some (.text (d.runText run))
  other : ∀ x, ¬ d.isText x = true ∨ x ∉ runs.flatten → e.content? x = d.content? x
  free : e.free = ((d.lost runs).map (·.index)).reverse ++ d.free
  size : e.size + (d.lost runs).length = d.size

namespace Merged

theorem refl (d : Document) : Merged d [] d.children d :=
  ⟨fun _ => by simp [lost], fun _ _ => rfl, rfl, fun _ h => absurd h List.not_mem_nil,
    fun _ _ => rfl, rfl, rfl⟩

theorem isText_eq (h : Merged d runs down e) (hx : ¬ d.isText x = true ∨ x ∉ runs.flatten) :
    e.isText x = d.isText x := by
  rw [isText, isText, Document.kind?, Document.kind?, h.other x hx]

theorem contains_eq (h : Merged d runs down e) (hx : ¬ d.isText x = true) :
    e.contains x = d.contains x := by
  rw [Bool.eq_iff_iff, h.contains_iff]
  exact and_iff_left fun hlost => hx (isText_of_mem_lost hlost)

/-- Every text is in one run only, so the runs can be merged one after the other. -/
theorem append (h : Merged d runs down e) (h' : Merged e runs' down' f)
    (hnd : (runs ++ runs').flatten.Nodup) : Merged d (runs ++ runs') down' f := by
  rw [List.flatten_append] at hnd
  have hfar : ∀ x ∈ runs'.flatten, e.content? x = d.content? x := fun x hx =>
    h.other x (.inr fun hx' => List.disjoint_of_nodup_append hnd hx' hx)
  have hrun : ∀ run ∈ runs', e.keptOf? run = d.keptOf? run ∧ e.lostOf run = d.lostOf run ∧
      e.runText run = d.runText run := fun run hr =>
    run_congr fun x hx => hfar x (List.mem_flatten_of_mem hr hx)
  have hlost : e.lost runs' = d.lost runs' := List.flatMap_congr fun run hr => (hrun run hr).2.1
  refine ⟨fun x => ?_, fun x hx => ?_, h'.children, fun run hr x hx hk => ?_, fun x hx => ?_,
    ?_, ?_⟩
  · rw [h'.contains_iff, h.contains_iff, hlost, lost_append, List.mem_append, not_or, and_assoc]
  · rw [lost_append, List.mem_append, not_or] at hx
    rw [h'.parent? x (hlost ▸ hx.2), h.parent? x hx.1]
  · rcases List.mem_append.1 hr with hr | hr
    · have hmem := List.mem_flatten_of_mem hr (keptOf?_mem hk)
      rw [h'.other x (.inr (List.disjoint_of_nodup_append hnd hmem)), h.kept run hr x hx hk]
    · obtain ⟨hk', -, ht'⟩ := hrun run hr
      have hmem := List.mem_flatten_of_mem hr (keptOf?_mem hk)
      have hx' : e.isText x = true := by rw [isText, Document.kind?, hfar x hmem]; exact hx
      rw [h'.kept run hr x hx' (hk'.trans hk), ht']
  · rw [List.flatten_append, List.mem_append, not_or] at hx
    have hfirst := hx.imp_right (·.1)
    rw [h'.other x (hx.imp (h.isText_eq hfirst ▸ ·) (·.2)), h.other x hfirst]
  · rw [h'.free, h.free, hlost, lost_append, List.map_append, List.reverse_append,
      List.append_assoc]
  · rw [lost_append, List.length_append, ← h.size, ← h'.size, hlost]
    omega

/-- A run of texts that has been gone through. -/
theorem of_rewritten (hl : d.Linked) (hd : ∀ c ∈ run, d.isText c = true)
    (h : Rewritten d (d.lostOf run) (d.written run) e) : Merged d [run] d.children e := by
  have hlost : d.lost [run] = d.lostOf run := List.flatMap_singleton ..
  refine ⟨fun x => ?_, fun x hx => ?_, ?_, fun r hr x hx hk => ?_, fun x hx => ?_, ?_, ?_⟩
  · rw [hlost]
    exact h.contains_iff
  · exact h.parent?_eq (hlost ▸ hx)
  · funext x
    by_cases hx : x ∈ d.lostOf run
    · have hgone : ¬ e.contains x = true := fun hlive => (h.contains_iff.1 hlive).2 hx
      rw [children_of_stale hgone, hl.text (mem_lostOf.1 hx).2.1]
    · exact h.children_eq hx
  · cases List.mem_singleton.1 hr
    refine h.content?_written (contains_of_isText hx) (fun hx' => ?_) (if_pos hk)
    exact (mem_lostOf.1 hx').2.2 hk
  · have hmem : x ∉ run := by
      rcases hx with hx | hx
      · exact fun hmem => hx (hd x hmem)
      · simpa using hx
    exact h.content?_same (fun hx' => hmem (mem_of_mem_lostOf hx')) (written_of_not_mem hmem)
  · rw [hlost]
    exact h.free
  · rw [hlost]
    exact h.size

/-- A node that is no text is passed over. -/
theorem of_other (hx : ¬ d.isText x = true) : Merged d [[x]] d.children d := by
  have hlost : d.lost [[x]] = [] := by rw [lost, List.flatMap_singleton, lostOf_other hx]
  refine ⟨fun y => by simp [hlost], fun _ _ => rfl, rfl, fun r hr y hy hk => ?_, fun _ _ => rfl,
    by rw [hlost]; rfl, by rw [hlost]; rfl⟩
  cases List.mem_singleton.1 hr
  cases List.mem_singleton.1 (keptOf?_mem hk)
  exact absurd hy hx

end Merged

/-- Behind a run stands a node of it, or else the node that was kept before, which is no text then.
Neither goes together with a text of the next run. -/
theorem apart_of_kept (h : (kept.head?.toList :: run :: runs).IsChain d.Apart)
    (hrun : d.IsRun run)
    (hsame : ∀ x, ¬ d.isText x = true ∨ x ∈ runs.flatten → e.isText x = d.isText x) :
    (((d.keptOf? run).toList ++ kept).head?.toList :: runs).IsChain e.Apart := by
  obtain ⟨hkept, hchain⟩ := List.isChain_cons_cons.1 h
  obtain ⟨hnext, hruns⟩ := List.isChain_cons.1 hchain
  have hback : ∀ {x}, e.isText x = true → x ∈ runs.flatten → d.isText x = true :=
    fun hx hmem => hsame _ (.inr hmem) ▸ hx
  refine List.isChain_cons.2 ⟨fun r hr x hx y hy ⟨htx, hty⟩ => ?_,
    hruns.imp_of_mem_imp fun r r' hr hr' happart x hx y hy ⟨htx, hty⟩ => ?_⟩
  · have hty := hback hty (List.mem_flatten_of_mem (List.mem_of_head? hr) hy)
    by_cases hdx : d.isText x = true
    · cases hk : d.keptOf? run with
      | some k =>
        have hxk : x = k := by simpa [hk] using hx
        exact hnext r hr x (hxk ▸ keptOf?_mem hk) y hy ⟨hdx, hty⟩
      | none =>
        rw [hk] at hx
        cases hrun with
        | other hz => rw [keptOf?_other hz] at hk; cases hk
        | texts hne hall =>
          obtain ⟨z, hz⟩ := List.exists_mem_of_ne_nil run hne
          exact hkept x hx z hz ⟨hdx, hall z hz⟩
    · exact hdx (hsame x (.inl hdx) ▸ htx)
  · exact happart x hx y hy ⟨hback htx (List.mem_flatten_of_mem hr hx),
      hback hty (List.mem_flatten_of_mem hr' hy)⟩

/-- Going through children that are cut into runs merges every run. -/
theorem mergeTexts_runs (hm : d.Merging p kept runs.flatten) (hruns : ∀ run ∈ runs, d.IsRun run)
    (hapart : (kept.head?.toList :: runs).IsChain d.Apart) :
    ∃ e, d.mergeTexts kept runs.flatten = (e, kept.reverse ++ runs.filterMap d.keptOf?) ∧
      Merged d runs d.children e := by
  induction runs generalizing d kept with
  | nil => exact ⟨d, by simp [mergeTexts], .refl d⟩
  | cons run runs ih =>
    have hrun := hruns run List.mem_cons_self
    have hnd : ([run] ++ runs).flatten.Nodup := (List.nodup_append.1 hm.nodup).2.1
    have hrest : ∀ {e}, Merged d [run] d.children e →
        e.Merging p ((d.keptOf? run).toList ++ kept) runs.flatten →
        ∃ f, e.mergeTexts ((d.keptOf? run).toList ++ kept) runs.flatten =
            (f, kept.reverse ++ (run :: runs).filterMap d.keptOf?) ∧
          Merged d (run :: runs) d.children f := by
      intro e he hme
      have hfar : ∀ x ∈ runs.flatten, x ∉ [run].flatten := fun x hx hx' => by
        rw [List.flatten_append] at hnd
        exact List.disjoint_of_nodup_append hnd hx' hx
      have hruns' : ∀ r ∈ runs, e.IsRun r := fun r hr =>
        (hruns r (List.mem_cons_of_mem run hr)).congr fun x hx =>
          he.isText_eq (.inr (hfar x (List.mem_flatten_of_mem hr hx)))
      obtain ⟨f, hf, hef⟩ := ih hme hruns' (apart_of_kept hapart hrun fun x hx =>
        he.isText_eq (hx.imp_right (hfar x)))
      have hkeptOf : runs.filterMap e.keptOf? = runs.filterMap d.keptOf? :=
        List.filterMap_congr fun r hr => (run_congr fun x hx =>
          he.other x (.inr (hfar x (List.mem_flatten_of_mem hr hx)))).1
      refine ⟨f, ?_, ?_⟩
      · rw [hf, hkeptOf, List.reverse_append]
        cases hk : d.keptOf? run <;> simp [hk]
      · have hall := he.append hef hnd
        rw [he.children] at hall
        exact hall
    cases hrun with
    | @other x hx =>
      have hk := keptOf?_other hx
      obtain ⟨f, hf, hef⟩ := hrest (.of_other hx) (by rw [hk]; exact hm.keep)
      refine ⟨f, ?_, hef⟩
      rw [List.flatten_cons, List.singleton_append, mergeTexts_other hx]
      rwa [hk] at hf
    | texts hne hall =>
      have hfirst : ∀ k, kept.head? = some k → ¬ d.isText k = true := by
        intro k hk htk
        obtain ⟨z, hz⟩ := List.exists_mem_of_ne_nil run hne
        obtain ⟨hkept, -⟩ := List.isChain_cons_cons.1 hapart
        exact hkept k (by rw [hk]; exact List.mem_singleton_self k) z hz ⟨htk, hall z hz⟩
      have hstart : Reading d p [] kept (run ++ runs.flatten) d := ⟨.refl d, hm⟩
      have hnd' : run.Nodup := by
        rw [List.singleton_append, List.flatten_cons] at hnd
        exact (List.nodup_append.1 hnd).1
      obtain ⟨e, he, heq⟩ := hstart.all hall hnd' hfirst
      obtain ⟨f, hf, hef⟩ := hrest (.of_rewritten hm.wellFormed.linked hall he.rewritten) he.merging
      exact ⟨f, heq.trans hf, hef⟩

/-! ### One node and all nodes -/

/-- What stays of the children of a node. -/
def mergedChildren (d : Document) (p : NodeId) : List NodeId := (d.textRuns p).filterMap d.keptOf?

theorem mem_children_of_mem_mergedChildren (hx : x ∈ d.mergedChildren p) : x ∈ d.children p := by
  obtain ⟨run, hrun, hk⟩ := List.mem_filterMap.1 hx
  rw [← flatten_textRuns]
  exact List.mem_flatten_of_mem hrun (keptOf?_mem hk)

theorem mem_mergedChildren (hx : x ∈ d.children p) (hlost : x ∉ d.lost (d.textRuns p)) :
    x ∈ d.mergedChildren p := by
  rw [← flatten_textRuns, List.mem_flatten] at hx
  obtain ⟨run, hrun, hx⟩ := hx
  exact List.mem_filterMap.2 ⟨run, hrun, keptOf?_of_not_mem_lost hrun (isRun_of_mem hrun) hx hlost⟩

theorem Relinked.run_eq (h : Relinked d e) (run : List NodeId) :
    e.keptOf? run = d.keptOf? run ∧ e.lostOf run = d.lostOf run ∧ e.runText run = d.runText run :=
  run_congr fun x _ => h.content? x

theorem Relinked.lost_eq (h : Relinked d e) (runs : List (List NodeId)) :
    e.lost runs = d.lost runs := List.flatMap_congr fun run _ => (h.run_eq run).2.1

/-- What is kept of the children of a node that has none any more. -/
theorem WellFormed.mergeTexts_orphan (h : d.WellFormed) (hc : d.contains c = true) :
    ∃ e, (d.orphan c).mergeTexts [] (d.children c) = (e, d.mergedChildren c) ∧
      Merged (d.orphan c) (d.textRuns c) (d.orphan c).children e ∧
      ∀ x ∈ d.mergedChildren c, e.contains x = true := by
  have horphan := Relinked.orphan d c
  have hm := InPlace.merging_orphan h hc
  rw [← flatten_textRuns] at hm
  have hruns : ∀ run ∈ d.textRuns c, (d.orphan c).IsRun run := fun run hrun =>
    (isRun_of_mem hrun).congr fun x _ => horphan.isText x
  have hchain : (([] : List NodeId).head?.toList :: d.textRuns c).IsChain (d.orphan c).Apart := by
    refine List.isChain_cons.2 ⟨fun _ _ _ hx => absurd hx List.not_mem_nil, ?_⟩
    refine (isChain_textRuns d c).imp fun r r' hr x hx y hy => ?_
    rw [horphan.isText, horphan.isText]
    exact hr x hx y hy
  obtain ⟨e, hloop, he⟩ := mergeTexts_runs hm hruns hchain
  have hkept : (d.textRuns c).filterMap (d.orphan c).keptOf? = d.mergedChildren c :=
    List.filterMap_congr fun run _ => (horphan.run_eq run).1
  have hloose := (InPlace.mergeLoop_eq hm).2.1
  rw [flatten_textRuns] at hloop hloose
  rw [List.reverse_nil, List.nil_append, hkept] at hloop
  rw [hloop] at hloose
  exact ⟨e, hloop, he, fun x hx => (hloose.loose x (List.mem_append_left _ hx)).insertable.child⟩

theorem WellFormed.normalizeOne_merged (h : d.WellFormed) (hc : d.contains c = true) :
    Merged d (d.textRuns c) (Function.update d.children c (d.mergedChildren c))
      (d.normalizeOne c) := by
  have hl := h.linked
  have horphan := Relinked.orphan d c
  obtain ⟨e, hloop, he, hlive⟩ := h.mergeTexts_orphan hc
  rw [normalizeOne, hloop]
  have hadopt := Relinked.adopt e c (d.mergedChildren c)
  have hlost := horphan.lost_eq (d.textRuns c)
  have hce : e.contains c = true := by
    refine (he.contains_iff c).2 ⟨(horphan.contains c).trans hc, fun hmem => ?_⟩
    have hself := mem_flatten_of_mem_lost hmem
    rw [flatten_textRuns] at hself
    exact hl.forest.grounded.ne_of_up (hl.mem_children.1 hself) rfl
  show Merged d _ _ (e.adopt c (d.mergedChildren c))
  refine ⟨fun x => ?_, fun x hx => ?_, ?_, fun run hr x hx hk => ?_, fun x hx => ?_, ?_, ?_⟩
  · rw [hadopt.contains, he.contains_iff, hlost, horphan.contains]
  · rw [parent?_adopt c hlive]
    dsimp only
    split
    · rename_i hmem
      exact (hl.mem_children.1 (mem_children_of_mem_mergedChildren hmem)).symm
    · rename_i hmem
      rw [he.parent? x (hlost ▸ hx), parent?_orphan fun _ => hl.mem_children]
      exact if_neg fun hup => hmem (mem_mergedChildren (hl.mem_children.2 hup) hx)
  · rw [children_adopt hce, he.children, children_orphan, Function.update_idem,
      Function.update_self]
    rfl
  · obtain ⟨hk', -, ht⟩ := horphan.run_eq run
    rw [hadopt.content?, he.kept run hr x ((horphan.isText x).trans hx) (hk'.trans hk), ht]
  · rw [hadopt.content?, he.other x (by rwa [horphan.isText]), horphan.content?]
  · rw [hadopt.free, he.free, hlost, horphan.free]
  · have hsize := he.size
    rw [hlost, size, size, horphan.live] at hsize
    rw [size, hadopt.live]
    exact hsize

/-- A node of whose children none is in a run that has been merged keeps its own runs. -/
theorem Merged.runs_eq (h : Merged d runs down e) (hdown : down x = d.children x)
    (hfar : ∀ c ∈ d.children x, c ∉ runs.flatten) :
    e.textRuns x = d.textRuns x ∧ e.mergedChildren x = d.mergedChildren x := by
  have hruns : e.textRuns x = d.textRuns x :=
    textRuns_congr ((congrFun h.children x).trans hdown) fun c hc => h.isText_eq (.inr (hfar c hc))
  refine ⟨hruns, ?_⟩
  rw [mergedChildren, hruns, mergedChildren]
  refine List.filterMap_congr fun run hrun => (run_congr fun c hc => ?_).1
  refine h.other c (.inr (hfar c ?_))
  rw [← flatten_textRuns]
  exact List.mem_flatten_of_mem hrun hc

/-- Merging below one node after the other merges the runs of all of them. -/
theorem WellFormed.foldl_normalizeOne (h : d.WellFormed) (hnd : cs.Nodup)
    (hcs : ∀ c ∈ cs, d.contains c = true ∧ ¬ d.isText c = true) :
    Merged d (cs.flatMap d.textRuns)
      (fun x => if x ∈ cs then d.mergedChildren x else d.children x) (cs.foldl normalizeOne d) := by
  induction cs generalizing d with
  | nil => simpa using Merged.refl d
  | cons c cs ih =>
    obtain ⟨hc, htext⟩ := hcs c List.mem_cons_self
    obtain ⟨hnew, hnd'⟩ := List.nodup_cons.1 hnd
    have hone := h.normalizeOne_merged hc
    have hwf := (InPlace.normalizeOne_eq h hc).2.1
    have hsame : ∀ y, y ≠ c → Function.update d.children c (d.mergedChildren c) y = d.children y :=
      fun y hyc => Function.update_of_ne hyc ..
    -- The children of the other nodes are in no run of `c`.
    have hother : ∀ y, y ≠ c → (d.normalizeOne c).textRuns y = d.textRuns y ∧
        (d.normalizeOne c).mergedChildren y = d.mergedChildren y := by
      refine fun y hyc => hone.runs_eq (hsame y hyc) fun x hx hx' => ?_
      rw [flatten_textRuns, h.linked.mem_children, h.linked.mem_children.1 hx] at hx'
      exact hyc (Option.some.inj hx')
    have hne : ∀ y ∈ cs, y ≠ c := fun y hy e => hnew (e ▸ hy)
    have hall := hone.append (ih hwf hnd' fun y hy => ?_) ?_
    · rw [List.flatMap_congr fun y hy => (hother y (hne y hy)).1] at hall
      rw [List.flatMap_cons, List.foldl_cons]
      convert hall using 1
      funext y
      by_cases hyc : y = c
      · subst hyc
        rw [if_pos List.mem_cons_self, if_neg hnew, hone.children, Function.update_self]
      · simp only [List.mem_cons, hyc, false_or, (hother y hyc).2, hone.children, hsame y hyc]
    · obtain ⟨hlive, hty⟩ := hcs y (List.mem_cons_of_mem c hy)
      rw [hone.contains_eq hty, hone.isText_eq (.inl hty)]
      exact ⟨hlive, hty⟩
    · rw [List.flatMap_congr fun y hy => (hother y (hne y hy)).1, ← List.flatMap_cons,
        flatten_flatMap_textRuns]
      exact h.linked.nodup_flatMap_children hnd

end MarkupTree.Document
