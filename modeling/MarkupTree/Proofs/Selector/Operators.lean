import MarkupTree.Proofs.Text.Runs
import MarkupTree.Selector.Basic

/-!
# Operators of attribute tests

What an operator accepts is a matter of where the value asked for stands in the actual value: it is
all of it, a word that stands alone in it, its beginning, its end or any part of it. So an operator
that asks for more implies one that asks for less, but the empty value, which is a part of every
text, is found by none of the operators that look for a part.
-/

namespace MarkupTree

namespace AttributeTest

variable {t : AttributeTest} {actual : String}

/-- The test accepts a value if it has another operator. -/
def AcceptsBy (t : AttributeTest) (operator : AttributeOperator) (actual : String) : Prop :=
  ({ t with operator } : AttributeTest).accepts actual = true

theorem acceptsBy_equals : t.AcceptsBy .equals actual ↔ actual = t.value := by
  simp [AcceptsBy, accepts]

theorem acceptsBy_includes : t.AcceptsBy .includes actual ↔
    Text.IsWord t.value.toList ∧ Text.StandsAlone t.value.toList actual.toList :=
  Text.hasToken_iff_standsAlone

theorem acceptsBy_dashMatch : t.AcceptsBy .dashMatch actual ↔
    actual = t.value ∨ t.value.toList ++ ['-'] <+: actual.toList := by
  simp [AcceptsBy, accepts, Text.startsWith_iff]

theorem acceptsBy_begins : t.AcceptsBy .begins actual ↔
    t.value ≠ "" ∧ t.value.toList <+: actual.toList := by
  simp [AcceptsBy, accepts, Text.startsWith_iff]

theorem acceptsBy_ends : t.AcceptsBy .ends actual ↔
    t.value ≠ "" ∧ t.value.toList <:+ actual.toList := by
  simp [AcceptsBy, accepts, Text.endsWith_iff]

theorem acceptsBy_holds : t.AcceptsBy .holds actual ↔
    t.value ≠ "" ∧ t.value.toList <:+: actual.toList := by
  simp [AcceptsBy, accepts, Text.holds_iff]

/-- Which operators accept a value if others do. -/
structure Graded (t : AttributeTest) (actual : String) : Prop where
  equals_dashMatch : t.AcceptsBy .equals actual → t.AcceptsBy .dashMatch actual
  includes_holds : t.AcceptsBy .includes actual → t.AcceptsBy .holds actual
  dashMatch_begins : t.value ≠ "" → t.AcceptsBy .dashMatch actual → t.AcceptsBy .begins actual
  equals_begins : t.value ≠ "" → t.AcceptsBy .equals actual → t.AcceptsBy .begins actual
  equals_ends : t.value ≠ "" → t.AcceptsBy .equals actual → t.AcceptsBy .ends actual
  begins_holds : t.AcceptsBy .begins actual → t.AcceptsBy .holds actual
  ends_holds : t.AcceptsBy .ends actual → t.AcceptsBy .holds actual
  /-- The empty value is found by no operator that looks for a part. -/
  empty : t.value = "" → ∀ operator ∈ [.includes, .begins, .ends, .holds],
    ¬ t.AcceptsBy operator actual

theorem graded (t : AttributeTest) (actual : String) : t.Graded actual := by
  have hdash : t.AcceptsBy .equals actual → t.AcceptsBy .dashMatch actual :=
    fun h => acceptsBy_dashMatch.2 (.inl (acceptsBy_equals.1 h))
  have hbegins (hne : t.value ≠ "") (h : t.AcceptsBy .dashMatch actual) :
      t.AcceptsBy .begins actual := by
    refine acceptsBy_begins.2 ⟨hne, ?_⟩
    rcases acceptsBy_dashMatch.1 h with rfl | hprefix
    · exact List.prefix_refl _
    · exact (List.prefix_append _ _).trans hprefix
  refine ⟨hdash, fun h => ?_, hbegins, fun hne h => hbegins hne (hdash h), fun hne h => ?_,
    fun h => ?_, fun h => ?_, fun hempty operator hop h => ?_⟩
  · obtain ⟨⟨hne, -⟩, before, after, hactual, -⟩ := acceptsBy_includes.1 h
    exact acceptsBy_holds.2 ⟨mt String.toList_eq_nil_iff.2 hne, before, after, hactual.symm⟩
  · obtain rfl := acceptsBy_equals.1 h
    exact acceptsBy_ends.2 ⟨hne, List.suffix_refl _⟩
  · obtain ⟨hne, hprefix⟩ := acceptsBy_begins.1 h
    exact acceptsBy_holds.2 ⟨hne, hprefix.isInfix⟩
  · obtain ⟨hne, hsuffix⟩ := acceptsBy_ends.1 h
    exact acceptsBy_holds.2 ⟨hne, hsuffix.isInfix⟩
  · simp only [List.mem_cons, List.not_mem_nil, or_false] at hop
    rcases hop with rfl | rfl | rfl | rfl
    · exact (acceptsBy_includes.1 h).1.1 (String.toList_eq_nil_iff.2 hempty)
    · exact (acceptsBy_begins.1 h).1 hempty
    · exact (acceptsBy_ends.1 h).1 hempty
    · exact (acceptsBy_holds.1 h).1 hempty

open Text in
/-- The tokens of a text are its maximal runs of characters other than white space, from left to
right; a text has exactly those tokens that are words and stand alone in it, and its unique tokens
are its tokens without repetition, where they occur first. The operators of attribute tests, which
look for a token or for a part, are graded whatever the values are. -/
theorem graded_by_tokens (s token : String) :
    RunsFrom s.toList 0 ((tokens s).map String.toList) ∧
    (hasToken s token = true ↔ IsWord token.toList ∧ StandsAlone token.toList s.toList) ∧
    FirstOccurrences (tokens s) (uniqueTokens s) ∧
    ∀ (t : AttributeTest) (actual : String), t.Graded actual :=
  ⟨runsFrom_tokens s, hasToken_iff_standsAlone, firstOccurrences_distinct (tokens s), graded⟩

/-- A no-break space bounds a token, and `|=` finds a language with its region. -/
theorem graded_by_tokens_region : Text.hasToken "ab\u00a0b" "b" = true ∧
    Text.StandsAlone "b".toList "ab\u00a0b".toList ∧
    "en" ≠ "" ∧ AcceptsBy ⟨"lang", .present, "en"⟩ .dashMatch "en-GB" ∧
    AcceptsBy ⟨"lang", .present, "en"⟩ .begins "en-GB" ∧
    AcceptsBy ⟨"lang", .present, "en"⟩ .holds "en-GB" := by
  obtain ⟨-, htoken, -, hgraded⟩ := graded_by_tokens "ab\u00a0b" "b"
  have hb : Text.hasToken "ab\u00a0b" "b" = true := by decide
  have hne : "en" ≠ "" := by decide
  have hdash : AcceptsBy ⟨"lang", .present, "en"⟩ .dashMatch "en-GB" :=
    acceptsBy_dashMatch.2 (.inr ⟨['G', 'B'], rfl⟩)
  have hbegins := (hgraded ⟨"lang", .present, "en"⟩ "en-GB").dashMatch_begins hne hdash
  have hholds := (hgraded ⟨"lang", .present, "en"⟩ "en-GB").begins_holds hbegins
  exact ⟨hb, (htoken.1 hb).2, hne, hdash, hbegins, hholds⟩

end AttributeTest

end MarkupTree
