import MarkupTree.Proofs.Selector.Grammar

/-!
# What is read is a selector

A text that the readers take is one of the texts that the rules describe, and it stands for what
they return. Every rule but white space takes something off the text.
-/

namespace MarkupTree.Selector

open Reader

variable {inner : OfText (List Chain)} {s t u : List Char} {c : Char}

/-! ### Texts grow shorter -/

theorem IsSpaces.length_le (h : IsSpaces s t) : t.length ≤ s.length := by
  obtain ⟨run, h⟩ := h
  rw [h.text_eq, List.length_append]
  exact Nat.le_add_left _ _

theorem IsLetters.length_le {cs : List Char} (h : IsLetters s cs t) : t.length ≤ s.length := by
  induction h with
  | stop => exact Nat.le_refl _
  | more h _ ih => exact Nat.le_trans ih (Nat.le_of_lt h.length_lt)

theorem IsName.length_lt {n : String} (h : IsName s n t) : t.length < s.length := by
  cases h with
  | mk hsome h =>
    cases h with
    | stop => exact absurd rfl hsome
    | more h h' => exact Nat.lt_of_le_of_lt h'.length_le h.length_lt

theorem IsIdentifier.length_lt {n : String} (h : IsIdentifier s n t) : t.length < s.length :=
  h.isName.length_lt

theorem IsQuoted.length_lt {q : Char} {cs : List Char} (h : IsQuoted q s cs t) :
    t.length < s.length := by
  induction h with
  | close => exact Nat.lt_succ_self _
  | plain _ _ _ ih => exact Nat.lt_succ_of_lt ih
  | escaped _ _ ih => exact Nat.lt_succ_of_lt (Nat.lt_succ_of_lt ih)

theorem IsValue.length_lt {IsWord : List Char → String → List Char → Prop} {n : String}
    (hword : ∀ {s n t}, IsWord s n t → t.length < s.length) (h : IsValue IsWord s n t) :
    t.length < s.length := by
  cases h with
  | string _ h => exact Nat.lt_succ_of_lt h.length_lt
  | word h => exact hword h

theorem IsOperator.length_lt {o : AttributeOperator} (h : IsOperator s o t) :
    t.length < s.length := by
  cases h with
  | equals => exact Nat.lt_succ_self _
  | other => exact Nat.lt_succ_of_lt (Nat.lt_succ_self _)

theorem IsAttributeTest.length_lt {test : AttributeTest} (h : IsAttributeTest s test t) :
    t.length < s.length := by
  cases h with
  | present h₀ hname h₂ =>
    have := h₀.length_le
    have := hname.length_lt
    have := h₂.length_le
    simp only [List.length_cons] at *
    omega
  | compared h₀ hname h₂ ho h₄ hvalue h₆ =>
    have := h₀.length_le
    have := hname.length_lt
    have := h₂.length_le
    have := ho.length_lt
    have := h₄.length_le
    have := hvalue.length_lt IsName.length_lt
    have := h₆.length_le
    simp only [List.length_cons] at *
    omega

theorem IsFormula.length_le {f : Nth} (h : IsFormula s f t) : t.length ≤ s.length := by
  cases h with
  | mk =>
    rw [List.length_append]
    exact Nat.le_add_left _ _

theorem IsLead.length_le {relation : Combinator} (h : IsLead s relation t) :
    t.length ≤ s.length := by
  cases h with
  | mark _ h => exact Nat.le_succ_of_le h.length_le
  | none => exact Nat.le_refl _

/-- What is in brackets behind the name of a pseudo-class leaves less than the name begins with. -/
theorem length_lt_of_argument {s₀ s₁ s₂ s₃ rest : List Char} {n : String}
    (hname : IsIdentifier s₀ n ('(' :: s₁)) (h₁ : IsSpaces s₁ s₂) (h₂ : s₃.length ≤ s₂.length)
    (h₃ : IsSpaces s₃ (')' :: rest)) : rest.length < (':' :: s₀).length := by
  have := hname.length_lt
  have := h₁.length_le
  have := h₃.length_le
  simp only [List.length_cons] at *
  omega

mutual

theorem IsList.length_lt : ∀ {s t : List Char} {chains : List Chain}, IsList s chains t →
    t.length < s.length
  | _, _, _, .last h => h.length_lt
  | _, _, _, .comma h h' => Nat.lt_trans h'.length_lt (Nat.lt_of_succ_lt h.length_lt)

theorem IsChain.length_lt : ∀ {s t : List Char} {chain : Chain}, IsChain s chain t →
    t.length < s.length
  | _, _, _, .mk hspaces hlead hpart htail =>
    Nat.lt_of_le_of_lt htail.length_le (Nat.lt_of_lt_of_le hpart.length_lt
      (Nat.le_trans hlead.length_le hspaces.length_le))

theorem IsTail.length_le : ∀ {s t : List Char} {parts : List Part}, IsTail s parts t →
    t.length ≤ s.length
  | _, _, _, .nil h => h.length_le
  | _, _, _, .mark h₀ _ h₁ hpart htail =>
    Nat.le_trans htail.length_le (Nat.le_trans (Nat.le_of_lt hpart.length_lt)
      (Nat.le_trans h₁.length_le (Nat.le_of_succ_le h₀.length_le)))
  | _, _, _, .space h₀ _ hpart htail =>
    Nat.le_trans htail.length_le (Nat.le_trans (Nat.le_of_lt hpart.length_lt) h₀.length_le)

theorem IsPart.length_lt : ∀ {relation : Combinator} {s t : List Char} {part : Part},
    IsPart relation s part t → t.length < s.length
  | _, _, _, _, .star h => Nat.lt_succ_of_le h.length_le
  | _, _, _, _, .named hname h => Nat.lt_of_le_of_lt h.length_le hname.length_lt
  | _, _, _, _, .simples hsome h => by
    cases h with
    | nil => exact absurd rfl hsome
    | cons h h' => exact Nat.lt_of_le_of_lt h'.length_le h.length_lt

theorem IsSimples.length_le : ∀ {s t : List Char} {simples : List Simple}, IsSimples s simples t →
    t.length ≤ s.length
  | _, _, _, .nil _ => Nat.le_refl _
  | _, _, _, .cons h h' => Nat.le_trans h'.length_le (Nat.le_of_lt h.length_lt)

theorem IsSimple.length_lt {s t : List Char} {simple : Simple} (h : IsSimple s simple t) :
    t.length < s.length := by
  cases h with
  | hasClass h => exact Nat.lt_succ_of_lt h.length_lt
  | hasId h => exact Nat.lt_succ_of_lt h.length_lt
  | hasAttribute h => exact h.length_lt
  | plain h => exact Nat.lt_succ_of_lt h.length_lt
  | counting hname _ h₁ hformula h₃ =>
    exact length_lt_of_argument hname h₁ hformula.length_le h₃
  | not hname _ h₁ hlist h₃ =>
    exact length_lt_of_argument hname h₁ (Nat.le_of_lt hlist.length_lt) h₃
  | contains hname _ h₁ hvalue h₃ =>
    have hlt := hvalue.length_lt IsIdentifier.length_lt
    exact length_lt_of_argument hname h₁ (Nat.le_of_lt hlt) h₃

end

/-! ### Readers -/

/-- The reader of the argument of `:not` takes lists of chains only. -/
def Sound (inner : OfText (List Chain)) : Prop := ∀ {s L t}, Reads inner s L t → IsList s L t

theorem not_isSpaces_nil : ¬ IsSpaces [] (c :: t) := by
  intro h
  cases h.length_le

theorem isSimple_of_pseudoClass (hinner : Sound inner) {x : Simple}
    (h : Reads (pseudoClass inner) s x t) : IsSimple s x t := by
  obtain ⟨u, name, v, rfl, hname, h⟩ := reads_pseudoClass.1 h
  rcases reads_pseudoClassNamed.1 h with ⟨w, y, argument, z, rfl, hy, hargument, h, hz⟩ |
    ⟨-, hplain, rfl⟩
  · rcases pseudoClassWith?_eq_some.1 hargument with ⟨counts, hcounts, rfl⟩ | ⟨hnot, rfl⟩ |
      ⟨hcontains, rfl⟩
    · obtain ⟨f, hf, rfl⟩ := reads_bind_pure.1 h
      rcases reads_nth hf with rfl | hformula
      · exact absurd hz not_isSpaces_nil
      · exact .counting hname hcounts hy hformula hz
    · obtain ⟨L, hL, rfl⟩ := reads_bind_pure.1 h
      exact .not hname hnot hy (hinner hL) hz
    · obtain ⟨value, hvalue, rfl⟩ := reads_bind_pure.1 h
      exact .contains hname hcontains hy (reads_stringOr_identifier.1 hvalue) hz
  · exact .plain hname hplain

theorem isSimple_of_reads (hinner : Sound inner) {x : Simple}
    (h : Reads (simpleStep inner) s (some x) t) : IsSimple s x t := by
  rcases reads_simpleStep_some.1 h with ⟨u, n, rfl, hn, rfl⟩ | ⟨u, n, rfl, hn, rfl⟩ |
    ⟨test, htest, rfl⟩ | h
  · exact .hasClass hn
  · exact .hasId hn
  · exact .hasAttribute htest
  · exact isSimple_of_pseudoClass hinner h

theorem isSimples_of_steps (hinner : Sound inner) {xs : List Simple}
    (h : Steps (simpleStep inner) s xs t) : IsSimples s xs t := by
  induction h with
  | stop h =>
    obtain ⟨rfl, -⟩ := reads_simpleStep_none.1 h
    exact .nil _
  | more h _ ih => exact .cons (isSimple_of_reads hinner h) ih

theorem isPart_of_reads (hinner : Sound inner) {relation : Combinator} {p : Part}
    (h : Reads (part inner relation) s p t) : IsPart relation s p t := by
  rcases reads_part.1 h with ⟨u, simples, rfl, hsimples, rfl⟩ |
    ⟨-, n, u, simples, hn, hsimples, rfl⟩ | ⟨-, -, simples, hsome, hsimples, rfl⟩
  · exact .star (isSimples_of_steps hinner (steps_of_reads_many hsimples))
  · exact .named hn (isSimples_of_steps hinner (steps_of_reads_many hsimples))
  · exact .simples hsome (isSimples_of_steps hinner (steps_of_reads_many hsimples))

theorem isTail_of_steps (hinner : Sound inner) {parts : List Part}
    (h : Steps (partStep inner) s parts t) : IsTail s parts t := by
  induction h with
  | stop h => exact .nil (reads_partStep_none.1 h).1
  | more h _ ih =>
    obtain ⟨u, hu, -, h⟩ := reads_partStep_some.1 h
    rcases h with ⟨c, relation, v, w, rfl, hc, hw, h⟩ | ⟨-, hne, h⟩
    · exact .mark hu hc hw (isPart_of_reads hinner (reads_requiredPart.1 h).2) ih
    · exact .space hu hne (isPart_of_reads hinner (reads_requiredPart.1 h).2) ih

theorem isChain_of_reads (hinner : Sound inner) {chain : Chain}
    (h : Reads (Selector.chain inner) s chain t) : IsChain s chain t := by
  obtain ⟨u, hu, h⟩ := reads_chain.1 h
  rcases h with ⟨c, relation, v, w, first, x, parts, rfl, hc, hw, hfirst, hparts, rfl⟩ |
    ⟨-, first, x, parts, hfirst, hparts, rfl⟩
  · exact .mk hu (.mark hc hw) (isPart_of_reads hinner (reads_requiredPart.1 hfirst).2)
      (isTail_of_steps hinner (steps_of_reads_many hparts))
  · exact .mk hu (.none u) (isPart_of_reads hinner (reads_requiredPart.1 hfirst).2)
      (isTail_of_steps hinner (steps_of_reads_many hparts))

/-- Once white space is passed over, none is left. -/
theorem IsSpaces.self (h : IsSpaces s t) : IsSpaces t t := by
  obtain ⟨run, h⟩ := h
  exact ⟨[], rfl, nofun, h.ends⟩

theorem IsSpaces.eq_dropWhile (h : IsSpaces s t) : t = s.dropWhile Text.isSpace := by
  obtain ⟨run, h⟩ := h
  rw [h.text_eq, List.dropWhile_append_of_pos h.all]
  cases t with
  | nil => rfl
  | cons c t => rw [List.dropWhile_cons_of_neg (h.ends c rfl)]

theorem IsSpaces.unique (h : IsSpaces s t) (h' : IsSpaces s u) : t = u :=
  h.eq_dropWhile.trans h'.eq_dropWhile.symm

theorem isList_of_steps (hinner : Sound inner) {chains : List Chain}
    (h : Steps (chainStep inner) s chains t) : ∀ {r : List Char} {first : Chain},
    IsChain r first s → IsList r (first :: chains) t := by
  induction h with
  | stop h =>
    intro r first hfirst
    obtain ⟨rfl, -⟩ := reads_chainStep_none.1 h
    exact .last hfirst
  | more h _ ih =>
    intro r first hfirst
    obtain ⟨u, v, rfl, hv, h⟩ := reads_chainStep_some.1 h
    refine .comma hfirst (ih ?_)
    cases isChain_of_reads hinner h with
    | mk hspaces hlead hpart htail =>
      obtain rfl := hv.self.unique hspaces
      exact .mk hv hlead hpart htail

theorem isList_of_reads_chains : ∀ depth : Nat, Sound (chains depth) := by
  intro depth
  induction depth with
  | zero => exact fun h => absurd h not_reads_throw
  | succ depth ih =>
    intro s L t h
    rw [chains, reads_bind] at h
    obtain ⟨first, u, hfirst, h⟩ := h
    obtain ⟨rest, hrest, rfl⟩ := reads_bind_pure.1 h
    exact isList_of_steps ih (steps_of_reads_many hrest) (isChain_of_reads ih hfirst)

theorem reads_whole {L : List Chain} : Reads whole s L t ↔ ∃ u, IsSpaces s u ∧
    ((u = [] ∧ L = [[]] ∧ t = []) ∨ (u ≠ [] ∧ Reads (chains u.length) u L t ∧ t = [])) := by
  simp only [whole, reads_skipSpace_bind, reads_atEnd_bind, reads_ahead_bind, reads_ite, reads_pure]
  refine exists_congr fun u => and_congr_right fun _ => or_congr ?_ ?_
  · rw [List.isEmpty_iff]
    constructor
    · rintro ⟨rfl, hL, rfl⟩
      exact ⟨rfl, hL, rfl⟩
    · rintro ⟨rfl, hL, rfl⟩
      exact ⟨rfl, hL, rfl⟩
  · rw [List.isEmpty_iff, reads_bind]
    simp only [reads_atEnd_bind, reads_ite, List.isEmpty_iff, reads_pure, not_reads_fail, and_false,
      or_false]
    refine and_congr_right fun _ => ?_
    constructor
    · rintro ⟨_, _, h, rfl, rfl, rfl⟩
      exact ⟨h, rfl⟩
    · rintro ⟨h, rfl⟩
      exact ⟨L, [], h, rfl, rfl, rfl⟩

theorem isSelector_of_reads {L : List Chain} (h : Reads whole s L t) : IsSelector s L := by
  obtain ⟨u, hu, ⟨rfl, rfl, -⟩ | ⟨-, h, rfl⟩⟩ := reads_whole.1 h
  · exact .blank hu
  · exact .list hu (isList_of_reads_chains _ h)

/-! ### Steps take something off the text -/

theorem shortens_simpleStep (hinner : Sound inner) : Shortens (simpleStep inner) := fun _ _ _ h =>
  (isSimple_of_reads hinner h).length_lt

theorem shortens_partStep (hinner : Sound inner) : Shortens (partStep inner) := by
  intro s p t h
  obtain ⟨u, hu, -, h⟩ := reads_partStep_some.1 h
  have hle := hu.length_le
  rcases h with ⟨c, relation, v, w, rfl, -, hw, h⟩ | ⟨-, -, h⟩
  · have hlt := (isPart_of_reads hinner (reads_requiredPart.1 h).2).length_lt
    have hle' := hw.length_le
    rw [List.length_cons] at hle
    omega
  · have hlt := (isPart_of_reads hinner (reads_requiredPart.1 h).2).length_lt
    omega

theorem shortens_chainStep (hinner : Sound inner) : Shortens (chainStep inner) := by
  intro s chain t h
  obtain ⟨u, v, rfl, hv, h⟩ := reads_chainStep_some.1 h
  have hlt := (isChain_of_reads hinner h).length_lt
  exact Nat.lt_succ_of_lt (Nat.lt_of_lt_of_le hlt hv.length_le)

end MarkupTree.Selector
