import MarkupTree.Document.Texts
import MarkupTree.Proofs.Tree
import MarkupTree.Signal.Canonical

/-!
# Texts of nodes and of signals

The texts at and below a node are those among its signals. Joined to one text they are the same for
all signals with one canonical form.
-/

namespace MarkupTree

namespace Signal

def text? : Signal → Option String
  | .text s => some s
  | _ => none

/-- The texts of signals, one after the other. -/
def textContent (signals : List Signal) : String := String.join (signals.filterMap text?)

theorem textContent_joinText (s : String) (signals : List Signal) :
    textContent (joinText s signals) = s ++ textContent signals := by
  cases signals with
  | nil => simp [joinText, textContent, text?]
  | cons signal rest =>
    cases signal <;> simp [joinText, textContent, text?, String.join_cons, String.append_assoc]

theorem textContent_joinTexts : ∀ signals : List Signal,
    textContent (joinTexts signals) = textContent signals
  | [] => rfl
  | .text s :: rest => by
    rw [joinTexts, textContent_joinText, textContent_joinTexts rest]
    simp [textContent, text?, String.join_cons]
  | .startTag _ _ :: rest | .endTag _ :: rest | .comment _ :: rest | .doctype _ :: rest
  | .processingInstruction _ :: rest => textContent_joinTexts rest

theorem textContent_filter : ∀ signals : List Signal,
    textContent (signals.filter (· != .text "")) = textContent signals
  | [] => rfl
  | signal :: rest => by
    have ih := textContent_filter rest
    by_cases hs : signal = .text ""
    · subst hs
      simpa [textContent, text?, String.join_cons] using ih
    · rw [List.filter_cons_of_pos (by simpa using hs)]
      cases signal with
      | text s =>
        simp only [textContent, List.filterMap_cons, text?, String.join_cons] at ih ⊢
        rw [ih]
      | startTag | endTag | comment | doctype | processingInstruction => exact ih

theorem textContent_map_sortAttributes : ∀ signals : List Signal,
    textContent (signals.map sortAttributes) = textContent signals := by
  intro signals
  rw [textContent, textContent, List.filterMap_map]
  congr 2
  funext signal
  cases signal <;> rfl

theorem textContent_canonical (signals : List Signal) :
    textContent (canonical signals) = textContent signals := by
  rw [canonical, textContent_map_sortAttributes, textContent_filter, textContent_joinTexts]

end Signal

namespace Document

variable {d : Document} {x : NodeId} {s : String}

theorem text?_of_content? {c : Content} (hc : d.content? x = some c) :
    d.text? x = c.text? := by rw [text?, hc, Option.bind_some]

theorem Linked.children_of_text? (h : d.Linked) (hs : d.text? x = some s) :
    d.children x = [] := by
  obtain ⟨c, hc, hcs⟩ := Option.bind_eq_some_iff.1 hs
  refine h.text (isText_iff_content?.2 ?_)
  cases c with
  | text s => exact ⟨s, hc⟩
  | document | element => cases hcs

theorem texts_of_text? (hs : d.text? x = some s) : d.texts x = [s] := by rw [texts, hs]

theorem Linked.filterMap_text?_cons (h : d.Linked) (x : NodeId) :
    (x :: d.descendants x).filterMap d.text? = d.texts x := by
  cases hs : d.text? x with
  | none => rw [List.filterMap_cons_none hs, texts, hs]
  | some s =>
    rw [List.filterMap_cons_some hs, texts_of_text? hs, h.descendants_eq_flatMap,
      h.children_of_text? hs]
    rfl

mutual

theorem Shows.filterMap_text? (h : d.Linked) : ∀ {t : Tree} {x : NodeId}, d.Shows t x →
    (x :: d.descendants x).filterMap d.text? = t.signals.filterMap Signal.text?
  | .document ts, x, hs => by
    rw [List.filterMap_cons_none (text?_of_content? hs.1), h.descendants_eq_flatMap,
      ShowsList.filterMap_text? h hs.2]
    rfl
  | .element name as ts, x, hs => by
    rw [List.filterMap_cons_none (text?_of_content? hs.1), h.descendants_eq_flatMap,
      ShowsList.filterMap_text? h hs.2, Tree.signals, List.filterMap_cons_none rfl,
      List.filterMap_append, List.filterMap_cons_none rfl, List.filterMap_nil, List.append_nil]
  | .text s, x, hs => by
    rw [List.filterMap_cons_some (text?_of_content? hs.1), h.descendants_eq_flatMap, hs.2]
    rfl

theorem ShowsList.filterMap_text? (h : d.Linked) : ∀ {ts : List Tree} {xs : List NodeId},
    d.ShowsList ts xs → (xs.flatMap fun x => x :: d.descendants x).filterMap d.text? =
      (Tree.signalsOfList ts).filterMap Signal.text?
  | [], [], _ => rfl
  | t :: ts, x :: xs, hs => by
    rw [List.flatMap_cons, List.filterMap_append, Shows.filterMap_text? h hs.1,
      ShowsList.filterMap_text? h hs.2, Tree.signalsOfList, List.filterMap_append]

end

theorem Shows.texts_eq (h : d.Linked) {t : Tree} (hs : d.Shows t x) :
    d.texts x = t.signals.filterMap Signal.text? := by
  rw [← h.filterMap_text?_cons, hs.filterMap_text? h]

end Document

end MarkupTree
