import MarkupTree.Proofs.Equality
import Mathlib.Data.List.Chain

/-!
# Texts side by side

Equality joins texts that stand side by side; equality up to white space trims each of them before.
White space at a seam between two texts is lost then, where trimming the whole run would keep it. So
nodes that are equal can differ up to white space, but they do not if no white space stands at a
seam inside a run, and in particular if no two texts stand side by side.
-/

namespace MarkupTree

namespace Text

/-- Trimming the texts one by one takes away what trimming them as one text does, and this is the
white space at the two ends. -/
def Seamless (run : List String) : Prop := String.join (run.map trim) = trim (String.join run)

/-- No white space stands at the seam where a text meets the next one. -/
def SolidSeam (s t : String) : Prop :=
  (∀ c ∈ s.toList.getLast?, ¬ isSpace c = true) ∧ ∀ c ∈ t.toList.head?, ¬ isSpace c = true

theorem dropWhile_isSpace_of_head {cs : List Char} (h : ∀ c ∈ cs.head?, ¬ isSpace c = true) :
    cs.dropWhile isSpace = cs := by
  cases cs with
  | nil => rfl
  | cons c cs => exact List.dropWhile_cons_of_neg (h c rfl)

theorem dropWhile_isSpace_append {as bs : List Char} (h : ∀ c ∈ bs.head?, ¬ isSpace c = true) :
    (as ++ bs).dropWhile isSpace = as.dropWhile isSpace ++ bs := by
  rw [List.dropWhile_append]
  split
  next has => rw [List.isEmpty_iff.1 has, List.nil_append, dropWhile_isSpace_of_head h]
  next => rfl

theorem trimChars_append {as bs : List Char} (ha : ∀ c ∈ as.getLast?, ¬ isSpace c = true)
    (hb : ∀ c ∈ bs.head?, ¬ isSpace c = true) :
    trimChars (as ++ bs) = trimChars as ++ trimChars bs := by
  have hlast : ∀ c ∈ (as.dropWhile isSpace).reverse.head?, ¬ isSpace c = true := by
    intro c hc
    rw [List.head?_reverse] at hc
    refine ha c ?_
    rw [← List.takeWhile_append_dropWhile (p := isSpace) (l := as), List.getLast?_append, hc]
    rfl
  have has : trimChars as = as.dropWhile isSpace := by
    rw [trimChars, dropWhile_isSpace_of_head hlast, List.reverse_reverse]
  have hbs : trimChars bs = (bs.reverse.dropWhile isSpace).reverse := by
    rw [trimChars, dropWhile_isSpace_of_head hb]
  rw [trimChars, dropWhile_isSpace_append hb, List.reverse_append, dropWhile_isSpace_append hlast,
    List.reverse_append, List.reverse_reverse, has, hbs]

theorem SolidSeam.trim_append {s t : String} (h : SolidSeam s t) :
    trim (s ++ t) = trim s ++ trim t := by
  rw [trim, String.toList_append, trimChars_append h.1 h.2, String.ofList_append]
  rfl

/-- Behind a solid seam no white space comes first, even if the first texts there are empty. -/
theorem head_join_of_isChain {s : String} {run : List String} (h : (s :: run).IsChain SolidSeam) :
    ∀ c ∈ (String.join run).toList.head?, ¬ isSpace c = true := by
  induction run generalizing s with
  | nil => nofun
  | cons t run ih =>
    obtain ⟨hst, hrun⟩ := List.isChain_cons_cons.1 h
    intro c hc
    rw [String.join_cons, String.toList_append, List.head?_append] at hc
    rcases Option.or_eq_some_iff.1 hc with hc | ⟨_, hc⟩
    · exact hst.2 c hc
    · exact ih hrun c hc

theorem seamless_of_isChain {run : List String} (h : run.IsChain SolidSeam) : Seamless run := by
  induction run with
  | nil => rfl
  | cons s run ih =>
    cases run with
    | nil => simp [Seamless]
    | cons t run =>
      obtain ⟨hst, hrun⟩ := List.isChain_cons_cons.1 h
      have hseam : SolidSeam s (String.join (t :: run)) := ⟨hst.1, head_join_of_isChain h⟩
      rw [Seamless, List.map_cons, String.join_cons, ih hrun, ← hseam.trim_append,
        ← String.join_cons]

end Text

namespace Signal

/-- The runs of texts before, between and behind the other signals. A run may be without texts. -/
def runs : List Signal → List (List String)
  | [] => [[]]
  | .text s :: rest => (runs rest).modifyHead (s :: ·)
  | _ :: rest => [] :: runs rest

/-- No white space stands at a seam between two texts, but at the ends of a run. -/
def Seamless (signals : List Signal) : Prop := ∀ run ∈ runs signals, Text.Seamless run

instance (signals : List Signal) : Decidable (Seamless signals) :=
  inferInstanceAs (Decidable (∀ run ∈ runs signals, String.join (run.map Text.trim) = _))

variable {signal : Signal} {rest : List Signal}

/-- What holds of a run, and of a run before a signal that is no text and any signals behind it,
holds of all signals. -/
theorem run_induction {motive : List Signal → Prop} (last : ∀ run : List String,
    motive (run.map .text)) (before : ∀ (run : List String) (signal : Signal)
    (rest : List Signal), signal.text? = none → motive rest →
      motive (run.map .text ++ signal :: rest)) (signals : List Signal) : motive signals := by
  have from_run : ∀ (signals : List Signal) (run : List String),
      motive (run.map .text ++ signals) := by
    intro signals
    induction signals with
    | nil =>
      intro run
      rw [List.append_nil]
      exact last run
    | cons signal rest ih =>
      intro run
      cases signal with
      | text s => simpa using ih (run ++ [s])
      | startTag | endTag | comment | doctype | processingInstruction =>
        exact before run _ rest rfl (ih [])
  exact from_run signals []

theorem seamless_map_text (run : List String) :
    Seamless (run.map .text) ↔ Text.Seamless run := by
  have hruns : runs (run.map .text) = [run] := by
    induction run with
    | nil => rfl
    | cons s run ih => rw [List.map_cons, runs, ih, List.modifyHead_cons]
  rw [Seamless, hruns, List.forall_mem_singleton]

theorem seamless_append_cons (h : signal.text? = none) (run : List String)
    (rest : List Signal) : Seamless (run.map .text ++ signal :: rest) ↔
      Text.Seamless run ∧ Seamless rest := by
  have hruns : runs (run.map .text ++ signal :: rest) = run :: runs rest := by
    induction run with
    | nil => cases signal <;> first | rfl | cases h
    | cons s run ih => rw [List.map_cons, List.cons_append, runs, ih, List.modifyHead_cons]
  rw [Seamless, hruns, List.forall_mem_cons]
  rfl

/-- If two signals side by side are texts, no white space stands at their seam. -/
def SolidSeam (signal next : Signal) : Prop :=
  ∀ s ∈ signal.text?, ∀ t ∈ next.text?, Text.SolidSeam s t

/-- No white space stands at a seam, but perhaps at the ends of the runs. -/
theorem seamless_of_solid_seams {signals : List Signal} (h : signals.IsChain SolidSeam) :
    Seamless signals := by
  have of_run : ∀ run : List String, (run.map text).IsChain SolidSeam → Text.Seamless run := by
    intro run hrun
    rw [List.isChain_map] at hrun
    exact Text.seamless_of_isChain (hrun.imp fun s t hst => hst s rfl t rfl)
  induction signals using run_induction with
  | last run => exact (seamless_map_text run).2 (of_run run h)
  | before run signal rest hsignal ih =>
    obtain ⟨hrun, hrest, -⟩ := List.isChain_append.1 h
    exact (seamless_append_cons hsignal run rest).2 ⟨of_run run hrun, ih hrest.tail⟩

/-- No two texts stand side by side. -/
theorem seamless_of_apart {signals : List Signal}
    (h : signals.IsChain fun x y => x.text? = none ∨ y.text? = none) : Seamless signals := by
  refine seamless_of_solid_seams (h.imp fun x y hxy s hs t ht => ?_)
  rcases hxy with hx | hy
  · cases hx.symm.trans hs
  · cases hy.symm.trans ht

/-! ### Canonical signals, run by run -/

/-- What is left of a run in canonical signals. -/
def ofRun (s : String) : List Signal := if s = "" then [] else [.text s]

theorem ofRun_inj {s t : String} : ofRun s = ofRun t ↔ s = t := by
  unfold ofRun
  by_cases hs : s = "" <;> by_cases ht : t = "" <;> simp [hs, ht, eq_comm]

theorem ofRun_append_cons_inj {s t : String} {signal : Signal} {rest rest' : List Signal}
    (h : signal.text? = none) : ofRun s ++ signal :: rest = ofRun t ++ signal :: rest' ↔
      s = t ∧ rest = rest' := by
  have hne : ∀ u : String, signal ≠ .text u := by
    rintro u rfl
    cases h
  unfold ofRun
  by_cases hs : s = "" <;> by_cases ht : t = "" <;> simp [hs, ht, hne, eq_comm]

theorem joinTexts_append {tail : List Signal}
    (h : ∀ t ∈ (joinTexts tail).head?, t.text? = none) (s : String) (run : List String) :
    joinTexts ((s :: run).map .text ++ tail) =
      .text (String.join (s :: run)) :: joinTexts tail := by
  induction run generalizing s with
  | nil =>
    show joinText s (joinTexts tail) = _
    rw [String.join_cons, String.join_nil, String.append_empty]
    cases htail : joinTexts tail with
    | nil => rfl
    | cons t tail' =>
      rw [htail] at h
      cases t with
      | text u => cases h _ rfl
      | startTag | endTag | comment | doctype | processingInstruction => rfl
  | cons t run ih =>
    show joinText s (joinTexts ((t :: run).map .text ++ tail)) = _
    rw [ih, joinText, String.join_cons (s := s)]

theorem canonical_append {tail : List Signal}
    (h : ∀ t ∈ (joinTexts tail).head?, t.text? = none) (run : List String) :
    canonical (run.map .text ++ tail) = ofRun (String.join run) ++ canonical tail := by
  cases run with
  | nil => rfl
  | cons s run =>
    rw [canonical, joinTexts_append h, ofRun]
    by_cases hs : String.join (s :: run) = ""
    · rw [if_pos hs, hs, List.filter_cons_of_neg (by simp)]
      rfl
    · rw [if_neg hs, List.filter_cons_of_pos (by simpa using hs)]
      rfl

theorem joinTexts_cons (h : signal.text? = none) (rest : List Signal) :
    joinTexts (signal :: rest) = signal :: joinTexts rest := by
  cases signal <;> first | rfl | cases h

theorem canonical_cons (h : signal.text? = none) (rest : List Signal) :
    canonical (signal :: rest) = sortAttributes signal :: canonical rest := by
  have hne : signal ≠ .text "" := by
    rintro rfl
    cases h
  rw [canonical, joinTexts_cons h, List.filter_cons_of_pos (by simpa using hne)]
  rfl

theorem canonical_map_text (run : List String) :
    canonical (run.map .text) = ofRun (String.join run) := by
  have hnil : ∀ t ∈ (joinTexts []).head?, t.text? = none := nofun
  have hrun := canonical_append hnil run
  rwa [List.append_nil, show canonical [] = [] from rfl, List.append_nil] at hrun

/-- A run and what stands behind it have their canonical signals for themselves. -/
theorem canonical_append_cons (h : signal.text? = none) (run : List String)
    (rest : List Signal) : canonical (run.map .text ++ signal :: rest) =
      ofRun (String.join run) ++ sortAttributes signal :: canonical rest := by
  rw [canonical_append _ run, canonical_cons h]
  rw [joinTexts_cons h]
  rintro _ ⟨⟩
  exact h

/-! ### Trimming before and after joining -/

theorem map_trim_map_text (run : List String) :
    (run.map Signal.text).map (mapText Text.trim) = (run.map Text.trim).map .text := by
  rw [List.map_map, List.map_map]
  rfl

theorem map_trim_append_cons (h : signal.text? = none) (run : List String)
    (rest : List Signal) : (run.map Signal.text ++ signal :: rest).map (mapText Text.trim) =
      (run.map Text.trim).map .text ++ signal :: rest.map (mapText Text.trim) := by
  rw [List.map_append, map_trim_map_text, List.map_cons]
  cases signal <;> first | rfl | cases h

/-- The texts trimmed, and then no empty text. -/
def trimTexts (signals : List Signal) : List Signal :=
  (signals.map (mapText Text.trim)).filter (· != .text "")

theorem trimTexts_ofRun (s : String) : trimTexts (ofRun s) = ofRun (Text.trim s) := by
  unfold ofRun
  by_cases hs : s = ""
  · subst hs
    rfl
  · by_cases ht : Text.trim s = "" <;> simp [hs, ht, trimTexts, mapText]

theorem trimTexts_append (signals signals' : List Signal) :
    trimTexts (signals ++ signals') = trimTexts signals ++ trimTexts signals' := by
  rw [trimTexts, List.map_append, List.filter_append]
  rfl

theorem trimTexts_cons (h : signal.text? = none) (rest : List Signal) :
    trimTexts (signal :: rest) = signal :: trimTexts rest := by
  cases signal <;> first | rfl | cases h

theorem text?_sortAttributes (signal : Signal) : (sortAttributes signal).text? = signal.text? := by
  cases signal <;> rfl

/-- Canonical signals can be trimmed afterwards just if no white space is lost at a seam. -/
theorem canonical_map_trim_iff (signals : List Signal) :
    canonical (signals.map (mapText Text.trim)) = trimTexts (canonical signals) ↔
      Seamless signals := by
  induction signals using run_induction with
  | last run =>
    rw [map_trim_map_text, canonical_map_text, canonical_map_text, trimTexts_ofRun,
      seamless_map_text, Text.Seamless, ofRun_inj]
  | before run signal rest h ih =>
    have hsort : (sortAttributes signal).text? = none := by rw [text?_sortAttributes, h]
    rw [map_trim_append_cons h, canonical_append_cons h, canonical_append_cons h,
      trimTexts_append, trimTexts_ofRun, trimTexts_cons hsort, ofRun_append_cons_inj hsort, ih,
      seamless_append_cons h]
    rfl

end Signal

namespace LiveNode

/-- No white space stands at a seam between two texts that are side by side at or below the node,
but at the ends of a run. -/
def Seamless (a : LiveNode) : Prop := Signal.Seamless a.signals

instance (a : LiveNode) : Decidable a.Seamless := inferInstanceAs (Decidable (Signal.Seamless _))

instance (a b : LiveNode) : Decidable (a.Equal b) := inferInstanceAs (Decidable (_ = true))

instance (a b : LiveNode) : Decidable (a.EqualModuloSpace b) :=
  inferInstanceAs (Decidable (_ = true))

/-- Nodes that are equal are equal up to white space if neither has white space at a seam. If just
one of them has, they are not. -/
theorem equalModuloSpace_iff_seamless {a b : LiveNode} (h : a.Equal b) (ha : a.Seamless) :
    a.EqualModuloSpace b ↔ b.Seamless := by
  rw [equal_iff_key, key, key, Signal.map_mapText_id, Signal.map_mapText_id, Prod.mk.injEq] at h
  obtain ⟨hkind, hcanonical⟩ := h
  have ha := (Signal.canonical_map_trim_iff a.signals).2 ha
  rw [equalModuloSpace_iff_key, key, key, Prod.mk.injEq, and_iff_right hkind, ha, hcanonical,
    Seamless, ← Signal.canonical_map_trim_iff b.signals]
  exact eq_comm

/-- White space at the ends of a run goes, whichever of its texts it stands in. -/
theorem equalModuloSpace_of_outer_space : ∃ a b : LiveNode,
    a.signals = [.text " a", .text "b "] ∧ b.signals = [.text " ab "] ∧ a.Equal b ∧ a.Seamless ∧
      b.Seamless ∧ a.EqualModuloSpace b := by
  obtain ⟨a, b, ha, hb, hequal⟩ : ∃ a b : LiveNode, a.signals = [.text " a", .text "b "] ∧
      b.signals = [.text " ab "] ∧ a.Equal b := by
    refine ⟨⟨_, @Reachable.ofSignals .default [.text " a", .text "b "] _ rfl, .root, rfl⟩,
      ⟨_, @Reachable.ofSignals .default [.text " ab "] _ rfl, .root, rfl⟩, ?_⟩
    exact ⟨by decide +kernel, by decide +kernel, by decide +kernel⟩
  have hseam : Text.SolidSeam " a" "b " := by simp [Text.SolidSeam, Text.isSpace]
  have ha' : a.Seamless := by
    rw [Seamless, ha]
    refine Signal.seamless_of_solid_seams (List.isChain_pair.2 ?_)
    rintro _ ⟨⟩ _ ⟨⟩
    exact hseam
  have hb' : b.Seamless := by
    rw [Seamless, hb]
    exact Signal.seamless_of_apart (List.isChain_singleton _)
  exact ⟨a, b, ha, hb, hequal, ha', hb', (equalModuloSpace_iff_seamless hequal ha').2 hb'⟩

/-- A text and the same text in two pieces are equal, but not up to white space if white space
stands at the seam. -/
theorem equal_but_not_modulo_space : ∃ a b : LiveNode, a.signals = [.text "a ", .text "b"] ∧
    b.signals = [.text "a b"] ∧ a.Equal b ∧ ¬ a.EqualModuloSpace b := by
  refine ⟨⟨_, @Reachable.ofSignals .default [.text "a ", .text "b"] _ rfl, .root, rfl⟩,
    ⟨_, @Reachable.ofSignals .default [.text "a b"] _ rfl, .root, rfl⟩, ?_⟩
  exact ⟨by decide +kernel, by decide +kernel, by decide +kernel, by decide +kernel⟩

end LiveNode

end MarkupTree
