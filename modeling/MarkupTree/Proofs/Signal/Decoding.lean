import MarkupTree.Proofs.RoundTrip

/-!
# Signals tell trees apart

The signals of trees, whatever closes them, can be read in one way only: where an element begins,
its children are followed by its end tag, so it is known where they end.
-/

namespace MarkupTree.Tree

/-- No tree goes on here: an end tag comes next, or nothing. -/
inductive Closes : List Signal → Prop
  | nil : Closes []
  | endTag (name : String) (rest : List Signal) : Closes (.endTag name :: rest)

variable {ts us : List Tree} {rest rest' : List Signal}

theorem eq_nil_of_closes (ht : InnerList ts) (h : Closes (signalsOfList ts ++ rest)) :
    ts = [] := by
  match ts, ht with
  | [], _ => rfl
  | .text s :: ts, _ => exact nomatch (h : Closes (.text s :: (signalsOfList ts ++ rest)))
  | .element name as cs :: ts, _ =>
    rw [signalsOfList, signals, List.cons_append, List.cons_append] at h
    exact nomatch h
  | .document _ :: _, ht => exact ht.1.elim

/-- Trees without documents in them are known from their signals, and so is what follows these. -/
theorem signalsOfList_append_inj : ∀ {ts us : List Tree} {rest rest' : List Signal},
    InnerList ts → InnerList us → Closes rest → Closes rest' →
    signalsOfList ts ++ rest = signalsOfList us ++ rest' → ts = us ∧ rest = rest'
  | [], us, rest, rest', _, hu, hr, _, h => by
    have h : rest = signalsOfList us ++ rest' := h
    obtain rfl := eq_nil_of_closes hu (h ▸ hr)
    exact ⟨rfl, h⟩
  | .document _ :: _, _, _, _, ht, _, _, _, _ => ht.1.elim
  | .text s :: ts, us, rest, rest', ht, hu, hr, hr', h => by
    cases us with
    | nil =>
      have h : signalsOfList _ ++ rest = rest' := h
      cases eq_nil_of_closes ht (h ▸ hr')
    | cons u us =>
      cases u with
      | document cs => exact hu.1.elim
      | element name as cs => cases (List.cons.inj h).1
      | text s' =>
        obtain ⟨hs, htail⟩ := List.cons.inj h
        obtain ⟨rfl, hrest⟩ := signalsOfList_append_inj ht.2 hu.2 hr hr' htail
        exact ⟨by rw [Signal.text.inj hs], hrest⟩
  | .element name as cs :: ts, us, rest, rest', ht, hu, hr, hr', h => by
    cases us with
    | nil =>
      have h : signalsOfList _ ++ rest = rest' := h
      cases eq_nil_of_closes ht (h ▸ hr')
    | cons u us =>
      cases u with
      | document cs' => exact hu.1.elim
      | text s => cases (List.cons.inj h).1
      | element name' as' cs' =>
        simp only [signalsOfList, signals, List.cons_append, List.append_assoc, List.nil_append,
          List.cons.injEq, Signal.startTag.injEq] at h
        obtain ⟨⟨rfl, rfl⟩, hcs⟩ := h
        obtain ⟨rfl, hclose⟩ :=
          signalsOfList_append_inj ht.1.2 hu.1.2 (.endTag name _) (.endTag name _) hcs
        obtain ⟨rfl, hrest⟩ := signalsOfList_append_inj ht.2 hu.2 hr hr' (List.cons.inj hclose).2
        exact ⟨rfl, hrest⟩

theorem signalsOfList_injective (ht : InnerList ts) (hu : InnerList us)
    (h : signalsOfList ts = signalsOfList us) : ts = us :=
  (signalsOfList_append_inj ht hu .nil .nil (congrArg (· ++ []) h)).1

end MarkupTree.Tree
