import MarkupTree.Proofs.Selector.Names

/-!
# One rule at a time

What the reader of each rule of selector texts reads, in terms of the readers that it calls.
-/

namespace MarkupTree.Selector

open Reader

variable {inner : OfText (List Chain)} {s t : List Char}

theorem reads_ite {α : Type} {p : Prop} [Decidable p] {x y : OfText α} {a : α} :
    Reads (if p then x else y) s a t ↔ (p ∧ Reads x s a t) ∨ (¬ p ∧ Reads y s a t) := by
  by_cases h : p
  · simp [h]
  · simp [h]

/-! ### Simple selectors -/

/-- The pseudo-classes with an argument count, exclude or ask for a text. -/
theorem pseudoClassWith?_eq_some {name : String} {argument : OfText Simple} :
    pseudoClassWith? inner name = some argument ↔
      (∃ counts, countingPseudoClass? name = some counts ∧
        argument = do return counts (← nth)) ∨
      (name = "not" ∧ argument = do return .not (← inner)) ∨
      (name = "contains" ∧ argument = do return .contains (← stringOr identifier)) := by
  rw [pseudoClassWith?]
  cases hcounts : countingPseudoClass? name with
  | some counts =>
    have hnot : name ≠ "not" := by
      rintro rfl
      cases hcounts
    have hcontains : name ≠ "contains" := by
      rintro rfl
      cases hcounts
    simp [hnot, hcontains, eq_comm]
  | none =>
    by_cases hnot : name = "not"
    · simp [hnot, eq_comm]
    · by_cases hcontains : name = "contains"
      · simp [hcontains, eq_comm]
      · simp [hnot, hcontains]

/-- An argument up to its closing bracket. -/
theorem reads_closed {x : OfText Simple} {a : Simple} :
    Reads (do
      let simple ← x
      let _ ← skipSpace
      expect ')'
      return simple) s a t ↔ ∃ v, Reads x s a v ∧ IsSpaces v (')' :: t) := by
  rw [reads_bind]
  simp only [reads_skipSpace_bind, reads_expect_bind, reads_pure]
  constructor
  · rintro ⟨_, v, h, _, hv, _, rfl, rfl, rfl⟩
    exact ⟨v, h, hv⟩
  · rintro ⟨v, h, hv⟩
    exact ⟨a, v, h, _, hv, t, rfl, rfl, rfl⟩

/-- What comes behind the name of a pseudo-class. -/
theorem reads_pseudoClassNamed {start : List Char} {name : String} {x : Simple} :
    Reads (pseudoClassNamed inner start name) s x t ↔
      (∃ s' u argument v, s = '(' :: s' ∧ IsSpaces s' u ∧
        pseudoClassWith? inner name = some argument ∧ Reads argument u x v ∧
        IsSpaces v (')' :: t)) ∨
      (s.head? ≠ some '(' ∧ plainPseudoClass? name = some x ∧ t = s) := by
  rw [pseudoClassNamed, reads_eat_bind]
  simp only [if_true, Bool.false_eq_true, if_false, reads_skipSpace_bind]
  refine or_congr ?_ (and_congr_right fun _ => ?_)
  · cases hargument : pseudoClassWith? inner name with
    | none => simp
    | some argument =>
      simp only [reads_closed, Option.some.injEq]
      constructor
      · rintro ⟨u, rfl, v, hu, w, h, hw⟩
        exact ⟨u, v, argument, w, rfl, hu, rfl, h, hw⟩
      · rintro ⟨u, v, _, w, rfl, hu, rfl, h, hw⟩
        exact ⟨u, rfl, v, hu, w, h, hw⟩
  · cases plainPseudoClass? name with
    | none => simp [reads_ite]
    | some y => simp [eq_comm]

theorem reads_pseudoClass {x : Simple} : Reads (pseudoClass inner) s x t ↔
    ∃ u name v, s = ':' :: u ∧ IsIdentifier u name v ∧
      Reads (pseudoClassNamed inner s (Text.lower name)) v x t := by
  simp only [pseudoClass, reads_get_bind, reads_expect_bind, reads_peek_bind, reads_ite,
    not_reads_failAt, and_false, false_or, reads_bind_of reads_identifier]
  constructor
  · rintro ⟨u, rfl, -, name, v, hname, h⟩
    exact ⟨u, name, v, rfl, hname, h⟩
  · rintro ⟨u, name, v, rfl, hname, h⟩
    refine ⟨u, rfl, fun hcolon => ?_, name, v, hname, h⟩
    have hbegins := hname.begins
    rw [hcolon] at hbegins
    cases hbegins

/-- The marks that simple selectors begin with. -/
def isSimpleMark (c : Char) : Bool := c = '.' || c = '#' || c = '[' || c = ':'

theorem reads_simpleStep_some {x : Simple} : Reads (simpleStep inner) s (some x) t ↔
    (∃ u n, s = '.' :: u ∧ IsIdentifier u n t ∧ x = .hasClass n) ∨
    (∃ u n, s = '#' :: u ∧ IsName u n t ∧ x = .hasId n) ∨
    (∃ test, IsAttributeTest s test t ∧ x = .hasAttribute test) ∨
    Reads (pseudoClass inner) s x t := by
  rw [simpleStep, reads_peek_bind]
  constructor
  · intro h
    split at h
    · next hs =>
      obtain ⟨u, rfl⟩ := List.head?_eq_some_iff.1 hs
      obtain ⟨n, hn, ⟨⟩⟩ := reads_bind_pure.1 (reads_bump_cons_bind.1 h)
      exact .inl ⟨u, n, rfl, reads_identifier.1 hn, rfl⟩
    · next hs =>
      obtain ⟨u, rfl⟩ := List.head?_eq_some_iff.1 hs
      obtain ⟨n, hn, ⟨⟩⟩ := reads_bind_pure.1 (reads_bump_cons_bind.1 h)
      exact .inr (.inl ⟨u, n, rfl, reads_name.1 hn, rfl⟩)
    · obtain ⟨test, htest, ⟨⟩⟩ := reads_bind_pure.1 h
      exact .inr (.inr (.inl ⟨test, reads_attributeTest.1 htest, rfl⟩))
    · obtain ⟨y, hy, ⟨⟩⟩ := reads_bind_pure.1 h
      exact .inr (.inr (.inr hy))
    · cases (reads_pure.1 h).1
  · rintro (⟨u, n, rfl, hn, rfl⟩ | ⟨u, n, rfl, hn, rfl⟩ | ⟨test, htest, rfl⟩ | h)
    · exact reads_bump_cons_bind.2 (reads_bind_pure.2 ⟨n, reads_identifier.2 hn, rfl⟩)
    · exact reads_bump_cons_bind.2 (reads_bind_pure.2 ⟨n, reads_name.2 hn, rfl⟩)
    · have hreads : Reads (attributeTest >>= fun test => pure (some (Simple.hasAttribute test))) s
          (some (.hasAttribute test)) t :=
        reads_bind_pure.2 ⟨test, reads_attributeTest.2 htest, rfl⟩
      cases htest with
      | present => exact hreads
      | compared => exact hreads
    · obtain ⟨u, -, -, rfl, -⟩ := reads_pseudoClass.1 h
      exact reads_bind_pure.2 ⟨x, h, rfl⟩

theorem reads_simpleStep_none : Reads (simpleStep inner) s none t ↔
    t = s ∧ ∀ c ∈ s.head?, ¬ isSimpleMark c = true := by
  rw [simpleStep, reads_peek_bind]
  split
  · next hs =>
    rw [hs]
    obtain ⟨u, rfl⟩ := List.head?_eq_some_iff.1 hs
    rw [reads_bump_cons_bind, reads_bind]
    simp [isSimpleMark]
  · next hs =>
    obtain ⟨u, rfl⟩ := List.head?_eq_some_iff.1 hs
    rw [reads_bump_cons_bind, reads_bind]
    simp [isSimpleMark]
  · next hs => simp [hs, isSimpleMark]
  · next hs => simp [hs, isSimpleMark]
  · next hclass hid htest hpseudo =>
    rw [reads_pure]
    constructor
    · rintro ⟨-, rfl⟩
      refine ⟨rfl, fun c hc hmark => ?_⟩
      simp only [isSimpleMark, Bool.or_eq_true, decide_eq_true_eq] at hmark
      rcases hmark with ((rfl | rfl) | rfl) | rfl
      · exact hclass hc
      · exact hid hc
      · exact htest hc
      · exact hpseudo hc
    · rintro ⟨rfl, -⟩
      exact ⟨rfl, rfl⟩

/-! ### Parts -/

theorem reads_tagName_bind {α : Type} {f : Option String → OfText α} {a : α} :
    Reads (tagName >>= f) s a t ↔
      (∃ n u, IsIdentifier s n u ∧ Reads (f (some (Text.lower n))) u a t) ∨
      (¬ beginsName s.head? = true ∧ Reads (f none) s a t) := by
  rw [tagName, bind_assoc, reads_peek_bind]
  by_cases h : beginsName s.head? = true
  · rw [if_pos h, bind_assoc]
    simp [h, reads_bind_of reads_identifier]
  · rw [if_neg h, pure_bind]
    have hnone : ¬ ∃ n u, IsIdentifier s n u ∧ Reads (f (some (Text.lower n))) u a t :=
      fun ⟨_, _, hn, _⟩ => h hn.begins
    simp [h, hnone]

theorem reads_simples {relation : Combinator} {star : Bool} {tag? : Option String} {p : Part} :
    Reads (do
      let simples ← many (simpleStep inner)
      if !star && tag?.isNone && simples.isEmpty then fail .unexpectedInside
      else return ⟨relation, tag?, simples⟩) s p t ↔
    ∃ simples, Reads (many (simpleStep inner)) s simples t ∧
      ¬ (star = false ∧ tag? = none ∧ simples = []) ∧ p = ⟨relation, tag?, simples⟩ := by
  rw [reads_bind]
  simp only [reads_ite, not_reads_fail, and_false, false_or, reads_pure, Bool.and_eq_true,
    Bool.not_eq_true', Option.isNone_iff_eq_none, List.isEmpty_iff, and_assoc]
  constructor
  · rintro ⟨simples, _, h, hsome, hp, rfl⟩
    exact ⟨simples, h, hsome, hp⟩
  · rintro ⟨simples, h, hsome, hp⟩
    exact ⟨simples, t, h, hsome, hp, rfl⟩

/-- A part begins with a star, with a name, or with a simple selector. -/
theorem reads_part {relation : Combinator} {p : Part} : Reads (part inner relation) s p t ↔
    (∃ u simples, s = '*' :: u ∧ Reads (many (simpleStep inner)) u simples t ∧
      p = ⟨relation, none, simples⟩) ∨
    (s.head? ≠ some '*' ∧ ∃ n u simples, IsIdentifier s n u ∧
      Reads (many (simpleStep inner)) u simples t ∧
      p = ⟨relation, some (Text.lower n), simples⟩) ∨
    (s.head? ≠ some '*' ∧ ¬ beginsName s.head? = true ∧ ∃ simples, simples ≠ [] ∧
      Reads (many (simpleStep inner)) s simples t ∧ p = ⟨relation, none, simples⟩) := by
  rw [part, reads_eat_bind]
  simp only [if_true, Bool.false_eq_true, if_false, pure_bind, reads_tagName_bind, reads_simples]
  constructor
  · rintro (⟨u, rfl, simples, h, -, hp⟩ | ⟨hs, h⟩)
    · exact .inl ⟨u, simples, rfl, h, hp⟩
    · rcases h with ⟨n, u, hn, simples, h, -, hp⟩ | ⟨hname, simples, h, hsome, hp⟩
      · exact .inr (.inl ⟨hs, n, u, simples, hn, h, hp⟩)
      · exact .inr (.inr ⟨hs, hname, simples, by simpa using hsome, h, hp⟩)
  · rintro (⟨u, simples, rfl, h, hp⟩ | ⟨hs, n, u, simples, hn, h, hp⟩ |
      ⟨hs, hname, simples, hsome, h, hp⟩)
    · exact .inl ⟨u, rfl, simples, h, by simp, hp⟩
    · exact .inr ⟨hs, .inl ⟨n, u, hn, simples, h, by simp, hp⟩⟩
    · exact .inr ⟨hs, .inr ⟨hname, simples, h, by simpa using hsome, hp⟩⟩

theorem reads_requiredPart {relation : Combinator} {p : Part} :
    Reads (requiredPart inner relation) s p t ↔
      ¬ atBoundary s.head? = true ∧ Reads (part inner relation) s p t := by
  rw [requiredPart, reads_peek_bind, reads_ite]
  simp

/-! ### Chains -/

theorem reads_combinator?_bind {α : Type} {f : Option Combinator → OfText α} {a : α} :
    Reads (combinator? >>= f) s a t ↔
      (∃ c relation u v, s = c :: u ∧ combinatorOf? c = some relation ∧ IsSpaces u v ∧
        Reads (f (some relation)) v a t) ∨
      (s.head?.bind combinatorOf? = none ∧ Reads (f none) s a t) := by
  rw [combinator?, bind_assoc, reads_peek_bind]
  cases s with
  | nil => simp
  | cons c s => 
    rw [List.head?_cons, Option.bind_some]
    cases hc : combinatorOf? c with
    | none =>
      simp only [pure_bind, true_and]
      refine (or_iff_right ?_).symm
      rintro ⟨_, relation, u, v, hs, hrelation, -⟩
      obtain ⟨rfl, rfl⟩ := List.cons.inj hs
      rw [hc] at hrelation
      cases hrelation
    | some relation =>
      simp only [bind_assoc, pure_bind, reads_bump_cons_bind, reads_skipSpace_bind]
      constructor
      · rintro ⟨v, hv, h⟩
        exact .inl ⟨c, relation, s, v, rfl, hc, hv, h⟩
      · rintro (⟨_, _, u, v, hs, hrelation, hv, h⟩ | ⟨hnone, -⟩)
        · obtain ⟨rfl, rfl⟩ := List.cons.inj hs
          obtain rfl := Option.some.inj (hc.symm.trans hrelation)
          exact ⟨v, hv, h⟩
        · cases hnone

theorem reads_partStep_none : Reads (partStep inner) s none t ↔
    IsSpaces s t ∧ atBoundary t.head? = true := by
  simp only [partStep, reads_skipSpace_bind, reads_peek_bind, reads_ite, reads_pure,
    reads_combinator?_bind]
  simp

/-- A further part stands behind a mark or behind white space. -/
theorem reads_partStep_some {p : Part} : Reads (partStep inner) s (some p) t ↔
    ∃ u, IsSpaces s u ∧ ¬ atBoundary u.head? = true ∧
      ((∃ c relation v w, u = c :: v ∧ combinatorOf? c = some relation ∧ IsSpaces v w ∧
          Reads (requiredPart inner relation) w p t) ∨
        (u.head?.bind combinatorOf? = none ∧ s ≠ u ∧
          Reads (requiredPart inner .descendant) u p t)) := by
  simp only [partStep, reads_skipSpace_bind, reads_peek_bind, reads_ite, reads_pure,
    reads_combinator?_bind]
  simp

/-- The first part of a chain and the parts behind it. -/
theorem reads_chain {chain : Chain} : Reads (Selector.chain inner) s chain t ↔
    ∃ u, IsSpaces s u ∧
      ((∃ c relation v w first x parts, u = c :: v ∧ combinatorOf? c = some relation ∧
          IsSpaces v w ∧ Reads (requiredPart inner relation) w first x ∧
          Reads (many (partStep inner)) x parts t ∧ chain = first :: parts) ∨
        (u.head?.bind combinatorOf? = none ∧ ∃ first x parts,
          Reads (requiredPart inner .descendant) u first x ∧
          Reads (many (partStep inner)) x parts t ∧ chain = first :: parts)) := by
  simp only [Selector.chain, reads_skipSpace_bind, reads_combinator?_bind]
  simp [reads_bind]

theorem reads_chainStep_none : Reads (chainStep inner) s none t ↔
    t = s ∧ s.head? ≠ some ',' := by
  rw [chainStep, reads_eat_bind]
  simp [reads_skipSpace_bind, and_comm]

theorem reads_chainStep_some {chain : Chain} : Reads (chainStep inner) s (some chain) t ↔
    ∃ u v, s = ',' :: u ∧ IsSpaces u v ∧ Reads (Selector.chain inner) v chain t := by
  rw [chainStep, reads_eat_bind]
  simp [reads_skipSpace_bind]

end MarkupTree.Selector
