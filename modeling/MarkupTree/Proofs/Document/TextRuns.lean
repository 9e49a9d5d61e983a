import MarkupTree.Proofs.Document.Merge
import Mathlib.Data.List.Find
import Mathlib.Data.List.SplitBy

/-!
# Runs of texts

The children of a node fall into runs: texts that stand side by side are one run, and every other
node is a run of its own. Of a run the first node stays that is no empty text, with all the text of
the run, and the other texts are lost.
-/

namespace MarkupTree.Document

variable {d e : Document} {x y c p : NodeId} {run run' pre : List NodeId}
  {runs : List (List NodeId)} {s : String}

def textRuns (d : Document) (p : NodeId) : List (List NodeId) :=
  (d.children p).splitBy fun x y => d.isText x && d.isText y

/-- The node of a run that stays. -/
def keptOf? (d : Document) (run : List NodeId) : Option NodeId :=
  run.find? fun x => d.text? x != some ""

/-- The texts of a run that are lost. -/
def lostOf (d : Document) (run : List NodeId) : List NodeId :=
  run.filter fun x => d.isText x && d.keptOf? run != some x

def runText (d : Document) (run : List NodeId) : String := String.join (run.filterMap d.text?)

/-- The texts that are lost in all of the runs. -/
def lost (d : Document) (runs : List (List NodeId)) : List NodeId := runs.flatMap d.lostOf

/-- A run holds texts only, or it is one node that is no text. -/
inductive IsRun (d : Document) : List NodeId → Prop
  | texts {run : List NodeId} (hne : run ≠ []) (h : ∀ x ∈ run, d.isText x = true) : IsRun d run
  | other {x : NodeId} (h : ¬ d.isText x = true) : IsRun d [x]

/-- No text of the one list could be put into a run with a text of the other. -/
def Apart (d : Document) (run run' : List NodeId) : Prop :=
  ∀ x ∈ run, ∀ y ∈ run', ¬ (d.isText x = true ∧ d.isText y = true)

/-! ### Cutting children into runs -/

theorem flatten_textRuns (d : Document) (p : NodeId) : (d.textRuns p).flatten = d.children p :=
  List.flatten_splitBy ..

theorem IsRun.ne_nil (h : d.IsRun run) : run ≠ [] := by
  cases h with
  | texts hne => exact hne
  | other => exact List.cons_ne_nil _ _

/-- Where one node of a run is a text all are. -/
theorem IsRun.isText (h : d.IsRun run) (hx : x ∈ run) (ht : d.isText x = true) (hy : y ∈ run) :
    d.isText y = true := by
  cases h with
  | texts _ hall => exact hall y hy
  | other hz =>
    rw [List.mem_singleton] at hx
    exact absurd (hx ▸ ht) hz

theorem IsRun.congr (h : d.IsRun run) (hsame : ∀ x ∈ run, e.isText x = d.isText x) :
    e.IsRun run := by
  cases h with
  | texts hne hall => exact .texts hne fun x hx => (hsame x hx).trans (hall x hx)
  | @other x hx => exact .other (by rwa [hsame x (List.mem_singleton_self x)])

theorem isText_of_isChain {l : List NodeId} (hx : d.isText x = true)
    (h : (x :: l).IsChain fun y z => (d.isText y && d.isText z) = true) :
    ∀ y ∈ x :: l, d.isText y = true := by
  induction l generalizing x with
  | nil => exact fun y hy => List.mem_singleton.1 hy ▸ hx
  | cons z l ih =>
    obtain ⟨hxz, hl⟩ := List.isChain_cons_cons.1 h
    have hz := (Bool.and_eq_true_iff.1 hxz).2
    exact List.forall_mem_cons.2 ⟨hx, ih hz hl⟩

theorem isRun_of_mem (h : run ∈ d.textRuns p) : d.IsRun run := by
  have hne := List.ne_nil_of_mem_splitBy h
  have hchain := List.isChain_of_mem_splitBy h
  match run with
  | [] => exact absurd rfl hne
  | x :: rest =>
    by_cases hx : d.isText x = true
    · exact .texts hne (isText_of_isChain hx hchain)
    · cases rest with
      | nil => exact .other hx
      | cons y rest =>
        obtain ⟨hxy, -⟩ := List.isChain_cons_cons.1 hchain
        exact absurd (Bool.and_eq_true_iff.1 hxy).1 hx

theorem isChain_textRuns (d : Document) (p : NodeId) : (d.textRuns p).IsChain d.Apart := by
  have hends := List.isChain_getLast_head_splitBy (fun x y => d.isText x && d.isText y)
    (d.children p)
  refine hends.imp_of_mem_imp fun r r' hr hr' ⟨hne, hne', hcut⟩ x hx y hy ⟨htx, hty⟩ => ?_
  have hlast := (isRun_of_mem hr).isText hx htx (List.getLast_mem hne)
  have hhead := (isRun_of_mem hr').isText hy hty (List.head_mem hne')
  rw [hlast, hhead] at hcut
  cases hcut

/-- The same children with texts at the same places fall into the same runs. -/
theorem textRuns_congr (hchildren : e.children p = d.children p)
    (htexts : ∀ x ∈ d.children p, e.isText x = d.isText x) : e.textRuns p = d.textRuns p := by
  have hmem : ∀ {run x}, run ∈ d.textRuns p → x ∈ run → e.isText x = d.isText x :=
    fun hrun hx => htexts _ (flatten_textRuns d p ▸ List.mem_flatten_of_mem hrun hx)
  have hends := List.isChain_getLast_head_splitBy (fun x y => d.isText x && d.isText y)
    (d.children p)
  rw [textRuns, hchildren, ← flatten_textRuns d p]
  refine List.splitBy_flatten (fun hnil => (isRun_of_mem hnil).ne_nil rfl) (fun run hrun => ?_)
    (hends.imp_of_mem_imp fun r r' hr hr' ⟨hne, hne', hcut⟩ => ⟨hne, hne', ?_⟩)
  · refine (List.isChain_of_mem_splitBy hrun).imp_of_mem_imp fun x y hx hy hxy => ?_
    rwa [hmem hrun hx, hmem hrun hy]
  · rwa [hmem hr (List.getLast_mem hne), hmem hr' (List.head_mem hne')]

theorem flatten_flatMap_textRuns (d : Document) (cs : List NodeId) :
    (cs.flatMap d.textRuns).flatten = cs.flatMap d.children := by
  induction cs with
  | nil => rfl
  | cons c cs ih =>
    rw [List.flatMap_cons, List.flatMap_cons, List.flatten_append, flatten_textRuns, ih]

/-- No node is a child of two nodes. -/
theorem Linked.nodup_flatMap_children (h : d.Linked) {cs : List NodeId} (hnd : cs.Nodup) :
    (cs.flatMap d.children).Nodup := by
  refine List.nodup_flatMap.2 ⟨fun c _ => h.forest.nodup c, hnd.imp fun {a b} hab x ha hb => ?_⟩
  rw [h.mem_children] at ha hb
  exact hab (Option.some.inj (ha.symm.trans hb))

/-! ### Of each run one node stays -/

theorem keptOf?_mem (h : d.keptOf? run = some x) : x ∈ run := List.mem_of_find?_eq_some h

theorem keptOf?_ne (h : d.keptOf? run = some x) : d.text? x ≠ some "" := by
  simpa using List.find?_some h

theorem keptOf?_other (h : ¬ d.isText x = true) : d.keptOf? [x] = some x := by
  have htext : d.text? x ≠ some "" := fun ht => h (isText_of_text? ht)
  simp [keptOf?, htext]

theorem lostOf_other (h : ¬ d.isText x = true) : d.lostOf [x] = [] := by simp [lostOf, h]

theorem mem_lostOf : x ∈ d.lostOf run ↔ x ∈ run ∧ d.isText x = true ∧ d.keptOf? run ≠ some x := by
  simp [lostOf]

theorem mem_lost : x ∈ d.lost runs ↔
    ∃ run ∈ runs, x ∈ run ∧ d.isText x = true ∧ d.keptOf? run ≠ some x := by
  simp only [lost, List.mem_flatMap, mem_lostOf]

theorem mem_flatten_of_mem_lost (h : x ∈ d.lost runs) : x ∈ runs.flatten := by
  obtain ⟨run, hrun, hx, -⟩ := mem_lost.1 h
  exact List.mem_flatten_of_mem hrun hx

theorem isText_of_mem_lost (h : x ∈ d.lost runs) : d.isText x = true := by
  obtain ⟨run, -, -, hx, -⟩ := mem_lost.1 h
  exact hx

theorem lost_append (d : Document) (runs runs' : List (List NodeId)) :
    d.lost (runs ++ runs') = d.lost runs ++ d.lost runs' := List.flatMap_append

/-- What becomes of a run depends on what its nodes hold. -/
theorem run_congr (h : ∀ x ∈ run, e.content? x = d.content? x) :
    e.keptOf? run = d.keptOf? run ∧ e.lostOf run = d.lostOf run ∧
      e.runText run = d.runText run := by
  have htext : ∀ x ∈ run, e.text? x = d.text? x := fun x hx => by rw [text?, text?, h x hx]
  have hkept : e.keptOf? run = d.keptOf? run :=
    List.find?_congr fun x hx => by rw [htext x hx]
  have hlost : e.lostOf run = d.lostOf run := by
    rw [lostOf, lostOf, hkept]
    refine List.filter_congr fun x hx => ?_
    rw [isText, isText, kind?, kind?, h x hx]
  refine ⟨hkept, hlost, ?_⟩
  rw [runText, runText, List.filterMap_congr htext]

theorem text?_eq_some : d.text? x = some s ↔ d.content? x = some (.text s) := by
  rw [text?, Option.bind_eq_some_iff]
  constructor
  · rintro ⟨content, hcontent, htext⟩
    cases content with
    | text => cases htext; exact hcontent
    | document => cases htext
    | element => cases htext
  · exact fun h => ⟨_, h, rfl⟩

theorem text?_eq_none (h : ¬ d.isText x = true) : d.text? x = none := by
  cases htext : d.text? x with
  | none => rfl
  | some s => exact absurd (isText_of_text? htext) h

theorem exists_text? (h : d.isText x = true) : ∃ s, d.text? x = some s := by
  obtain ⟨s, hs⟩ := isText_iff_content?.1 h
  exact ⟨s, text?_eq_some.2 hs⟩

/-- Every node of the runs that is not lost is the one that stays of its run. -/
theorem keptOf?_of_not_mem_lost (hrun : run ∈ runs) (h : d.IsRun run) (hx : x ∈ run)
    (hlost : x ∉ d.lost runs) : d.keptOf? run = some x := by
  by_contra hkept
  cases h with
  | texts _ hall => exact hlost (mem_lost.2 ⟨run, hrun, hx, hall x hx, hkept⟩)
  | other hy =>
    cases List.mem_singleton.1 hx
    exact hkept (keptOf?_other hy)

/-! ### One more text in a run -/

section
variable (hc : d.text? c = some s)
include hc

theorem runText_concat (pre : List NodeId) : d.runText (pre ++ [c]) = d.runText pre ++ s := by
  rw [runText, List.filterMap_append, String.join_append, List.filterMap_cons_some hc,
    List.filterMap_nil, String.join_cons, String.join_nil, String.append_empty, runText]

theorem keptOf?_concat_empty (hs : s = "") : d.keptOf? (pre ++ [c]) = d.keptOf? pre := by
  simp [keptOf?, hc, hs]

theorem keptOf?_concat_first (hs : s ≠ "") (hpre : d.keptOf? pre = none) :
    d.keptOf? (pre ++ [c]) = some c := by
  rw [keptOf?] at hpre ⊢
  simp [hpre, hc, hs]

theorem lostOf_concat_first (hs : s ≠ "") (hpre : d.keptOf? pre = none) (hnew : c ∉ pre) :
    d.lostOf (pre ++ [c]) = d.lostOf pre := by
  rw [lostOf, keptOf?_concat_first hc hs hpre, List.filter_append, lostOf, hpre,
    List.filter_cons_of_neg (by simp), List.filter_nil, List.append_nil]
  refine List.filter_congr fun x hx => ?_
  have hcx : c ≠ x := fun e => hnew (e ▸ hx)
  rw [bne_iff_ne.2 fun e => hcx (Option.some.inj e)]
  rfl

/-- If another node stays of the run, the text is lost. -/
theorem lostOf_concat (hsame : d.keptOf? (pre ++ [c]) = d.keptOf? pre) (hnew : c ∉ pre) :
    d.lostOf (pre ++ [c]) = d.lostOf pre ++ [c] := by
  have hcx : d.keptOf? pre ≠ some c := fun h => hnew (keptOf?_mem h)
  rw [lostOf, hsame, List.filter_append, lostOf,
    List.filter_cons_of_pos (by simp [isText_of_text? hc, hcx]), List.filter_nil]

end

theorem keptOf?_concat_next (hpre : d.keptOf? pre = some x) (c : NodeId) :
    d.keptOf? (pre ++ [c]) = some x := by
  rw [keptOf?] at hpre ⊢
  rw [List.find?_append, hpre, Option.some_or]

theorem runText_of_none (h : d.keptOf? run = none) : d.runText run = "" := by
  rw [keptOf?, List.find?_eq_none] at h
  have hempty : ∀ s ∈ run.filterMap d.text?, s = "" := by
    intro s hs
    obtain ⟨x, hx, hxs⟩ := List.mem_filterMap.1 hs
    simpa [hxs] using h x hx
  rw [runText, ← String.toList_inj, String.toList_join]
  exact List.flatMap_eq_nil_iff.2 fun s hs => by rw [hempty s hs]; rfl

theorem runText_ne_empty (h : d.keptOf? run = some x) (hx : d.isText x = true) :
    d.runText run ≠ "" := by
  obtain ⟨s, hs⟩ := exists_text? hx
  have hmem : s ∈ run.filterMap d.text? := List.mem_filterMap.2 ⟨x, keptOf?_mem h, hs⟩
  intro hempty
  rw [runText, ← String.toList_inj, String.toList_join, String.toList_empty,
    List.flatMap_eq_nil_iff] at hempty
  refine keptOf?_ne h (hs.trans ?_)
  rw [String.toList_eq_nil_iff.1 (hempty s hmem)]

end MarkupTree.Document
