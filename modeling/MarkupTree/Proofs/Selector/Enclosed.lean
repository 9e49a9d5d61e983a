import MarkupTree.Proofs.Selector.Appended

/-!
# Selectors between brackets

A closing bracket stops every rule. So what a text stands for does not change with a closing bracket
behind it, and a whole selector text, put between the brackets of `:not`, is read there as it is on
its own.
-/

namespace MarkupTree.Selector

variable {s t after : List Char}

/-- The text with a closing bracket behind it, and more. -/
def enclosed (s after : List Char) : List Char := s ++ ')' :: after

theorem stopsRules_bracket (after : List Char) : StopsRules (')' :: after) := by
  refine ⟨stopsName_cons (by decide) after, ?_⟩
  rintro _ ⟨⟩
  decide

theorem IsSpaces.enclose (h : IsSpaces s t) : IsSpaces (enclosed s after) (enclosed t after) :=
  h.append (seam_of_stopsRules (stopsRules_bracket after) t)

theorem IsList.enclose {chains : List Chain} (h : IsList s chains t) :
    IsList (enclosed s after) chains (enclosed t after) :=
  h.append (seam_of_stopsRules (stopsRules_bracket after) t)

/-- A selector text that is not blank can be the argument of `:not`. -/
theorem IsSelector.not {alternatives : List Chain} (h : IsSelector s alternatives)
    (hblank : alternatives ≠ [[]]) : IsSelector (":not(".toList ++ enclosed s [])
      [[⟨.descendant, none, [.not alternatives]⟩]] := by
  cases h with
  | blank => exact absurd rfl hblank
  | list hspaces hlist =>
    have hname : IsIdentifier (writeName "not" ++ '(' :: enclosed s []) "not"
        ('(' :: enclosed s []) := isIdentifier_writeName (by decide) (stopsName_cons (by decide) _)
    have hsimple : IsSimple (':' :: (writeName "not" ++ '(' :: enclosed s []))
        (.not alternatives) [] :=
      .not hname (Text.lower_eq_of_isLowerAscii (by decide)) hspaces.enclose hlist.enclose
        (isSpaces_cons (by decide))
    have hpart : IsPart .descendant (':' :: (writeName "not" ++ '(' :: enclosed s []))
        ⟨.descendant, none, [.not alternatives]⟩ [] :=
      .simples (List.cons_ne_nil _ _) (.cons hsimple (.nil []))
    exact .list (isSpaces_cons (by decide))
      (.last (.mk (isSpaces_cons (by decide)) (.none _) hpart (.nil isSpaces_nil)))

theorem scan_eq_ok {source : String} {x : Selector} : scan source = .ok x ↔
    x.source = source ∧ IsSelector source.toList x.alternatives := by
  obtain ⟨text, alternatives⟩ := x
  rw [scan_eq]
  rcases parse_cases source with ⟨L, hL, hparse⟩ | ⟨hnone, e, hparse⟩
  · rw [hparse]
    constructor
    · rintro ⟨⟩
      exact ⟨rfl, hL⟩
    · rintro ⟨rfl, h⟩
      rw [hL.unique h]
      rfl
  · rw [hparse]
    exact iff_of_false nofun fun h => hnone ⟨_, h.2⟩

/-- A text that compiles, but not to the empty chain, compiles between the brackets of `:not` to the
exclusion of what it stands for. -/
theorem scan_not {source : String} {x : Selector} (h : scan source = .ok x)
    (hblank : x.alternatives ≠ [[]]) : scan (":not(" ++ source ++ ")") = .ok
      ⟨":not(" ++ source ++ ")", [[⟨.descendant, none, [.not x.alternatives]⟩]]⟩ := by
  refine scan_eq_ok.2 ⟨rfl, ?_⟩
  rw [String.toList_append, String.toList_append, List.append_assoc]
  exact (scan_eq_ok.1 h).2.not hblank

end MarkupTree.Selector
