import MarkupTree.Proofs.Selector.Scanner

/-!
# Which texts are selectors

The texts that compile are those that the rules describe, and they compile to what they stand for.
-/

namespace MarkupTree.Selector

open Reader

/-- Compiling has one outcome: alternatives that the text lists, or an error if it lists none. -/
theorem parse_cases (source : String) :
    (∃ alternatives, IsSelector source.toList alternatives ∧
      parse source = .ok ⟨source, alternatives⟩) ∨
    ((¬ ∃ alternatives, IsSelector source.toList alternatives) ∧ ∃ e, parse source = .error e) := by
  simp only [← reads_whole_iff]
  unfold parse readChars Reads
  cases whole.run source.toList with
  | ok p => exact .inl ⟨p.1, ⟨p.2, rfl⟩, rfl⟩
  | error f =>
    refine .inr ⟨?_, f.toError source.toList, rfl⟩
    rintro ⟨_, _, h⟩
    cases h

/-- A text stands for one list of alternatives only. -/
theorem IsSelector.unique {text : List Char} {L L' : List Chain} (h : IsSelector text L)
    (h' : IsSelector text L') : L = L' :=
  (h.reads.unique h'.reads).1

/-- A text compiles to the alternatives that it lists, and every other text is refused with a syntax
error. Reading by bytes has the same outcome: no slice is missing, and every loop comes to an
end. -/
theorem scan_ok_iff_isSelector (source : String) :
    (∀ alternatives, scan source = .ok ⟨source, alternatives⟩ ↔
      IsSelector source.toList alternatives) ∧
    ((∃ e, scan source = .error (.refused e)) ↔
      ¬ ∃ alternatives, IsSelector source.toList alternatives) ∧
    scan source = (parse source).mapError .refused := by
  refine ⟨?_, ?_, scan_eq source⟩
  · intro alternatives
    rw [scan_eq]
    rcases parse_cases source with ⟨L, hL, hparse⟩ | ⟨hnone, e, hparse⟩
    · rw [hparse]
      constructor
      · rintro ⟨⟩
        exact hL
      · intro h
        rw [h.unique hL]
        rfl
    · rw [hparse]
      exact ⟨nofun, fun h => absurd ⟨alternatives, h⟩ hnone⟩
  · rw [scan_eq]
    rcases parse_cases source with ⟨L, hL, hparse⟩ | ⟨hnone, e, hparse⟩
    · rw [hparse]
      exact ⟨nofun, fun h => absurd ⟨L, hL⟩ h⟩
    · rw [hparse]
      exact ⟨fun _ => hnone, fun _ => ⟨e, rfl⟩⟩

end MarkupTree.Selector
