import MarkupTree.Proofs.Json
import MarkupTree.Proofs.Player
import MarkupTree.Proofs.Reachable

/-!
# Signals survive their transport as JSON

The JSON form of a signal stands for the signal and for no other, and the text of a list of signals
is read back as the list. So a node can be sent as a text, and the document that is built at the
other end is the one that its signals describe.
-/

namespace MarkupTree

/-! ### Records -/

/-- A list is read back entry by entry. -/
theorem mapM_map_eq_some {α β : Type} {f : α → β} {g : β → Option α} (h : ∀ a, g (f a) = some a)
    (l : List α) : (l.map f).mapM g = some l := by
  induction l with
  | nil => rfl
  | cons a l ih => rw [List.map_cons, List.mapM_cons, h, ih]; rfl

theorem Attribute.ofJson?_toJson (a : Attribute) : ofJson? a.toJson = some a := by
  simp [ofJson?, toJson, Json.record, Json.fields?, Json.text, Json.text?]

theorem Signal.ofJson?_toJson (s : Signal) : ofJson? s.toJson = some s := by
  cases s with
  | startTag name attributes =>
    simp [ofJson?, toJson, startTagOfJson?, Json.record, Json.fields?, Json.text, Json.text?,
      Json.items?, mapM_map_eq_some Attribute.ofJson?_toJson, -List.mapM_map]
  | endTag | text | comment | doctype | processingInstruction => rfl

/-! ### Texts -/

theorem Json.numberFreeItems_map {α : Type} {f : α → Json} (hf : ∀ a, (f a).NumberFree) :
    ∀ l : List α, NumberFreeItems (l.map f)
  | [] => trivial
  | a :: l => ⟨hf a, numberFreeItems_map hf l⟩

namespace Signal

theorem numberFree_toJson (s : Signal) : s.toJson.NumberFree := by
  cases s with
  | startTag name attributes =>
    have hattributes := Json.numberFreeItems_map (f := Attribute.toJson)
      (fun _ => ⟨trivial, trivial, trivial⟩) attributes
    exact ⟨⟨trivial, hattributes, trivial⟩, trivial⟩
  | endTag | text | comment | doctype | processingInstruction => exact ⟨trivial, trivial⟩

/-- The text of a list of signals is read back as the list, whatever characters are in it. -/
theorem parseList?_renderList (signals : List Signal) :
    parseList? (renderList signals) = some signals := by
  have hread : Json.parse? (renderList signals) = some (.array (signals.map toJson)) :=
    Json.parse?_render (v := .array (signals.map toJson))
      (Json.numberFreeItems_map numberFree_toJson signals)
  rw [parseList?, hread]
  exact mapM_map_eq_some ofJson?_toJson signals

end Signal

namespace Document

variable {d : Document} {x : NodeId}

/-- A live node has a JSON text. The text is read back as the signals that a player gives of the
node, so a document built from the text is the document built from the signals, and building fails
for the one as it fails for the other. -/
theorem ofSignalsText?_signalsText (h : Reachable d) (hx : d.contains x = true) :
    ∃ text, d.signalsText x = .ok text ∧ d.Plays [.enter x] (d.signals x) ∧
      Signal.parseList? text = some (d.signals x) ∧
      ofSignalsText? text = some (ofSignals .default (d.signals x)) := by
  have hread := Signal.parseList?_renderList (d.signals x)
  obtain ⟨node, hnode⟩ := exists_require.2 hx
  refine ⟨Signal.renderList (d.signals x), ?_, ?_, hread, ?_⟩
  · rw [signalsText, hnode]
    rfl
  · exact (wellFormed_of_reachable h).linked.plays_iff.2 rfl
  · rw [ofSignalsText?, hread]
    rfl

/-- A quote, a control and a character beyond the first 65536 come through. -/
theorem ofSignalsText?_signalsText_quote :
    ∃ text, (new.createText "\"\x01😀").1.signalsText ⟨1, 0⟩ = .ok text ∧
      (new.createText "\"\x01😀").1.Plays [.enter ⟨1, 0⟩]
        ((new.createText "\"\x01😀").1.signals ⟨1, 0⟩) ∧
      Signal.parseList? text = some ((new.createText "\"\x01😀").1.signals ⟨1, 0⟩) ∧
      ofSignalsText? text = some (ofSignals .default ((new.createText "\"\x01😀").1.signals ⟨1, 0⟩)) :=
  ofSignalsText?_signalsText (.createText .new _) rfl

end Document

end MarkupTree
