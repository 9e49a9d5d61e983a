import MarkupTree.Proofs.Selector.Sound

/-!
# Every selector is read

The readers take every text that the rules describe. A rule does not say what may follow it, but
what follows decides where a reader stops, so the texts behind a part, a chain and a list are
limited to those that can stand there.
-/

namespace MarkupTree.Selector

open Reader

variable {inner : OfText (List Chain)} {s t u : List Char} {c : Char}

/-! ### How texts begin -/

/-- A part ends here: no further simple selector comes next, and no argument. -/
def EndsPart (rest : List Char) : Prop := ∀ c ∈ rest.head?, ¬ isSimpleMark c = true ∧ c ≠ '('

/-- The characters that parts begin with. -/
def BeginsPart (text : List Char) : Prop :=
  ∃ c ∈ text.head?, c = '*' ∨ isNameStart c = true ∨ isSimpleMark c = true

theorem IsSpaces.head_of_ne (h : IsSpaces s t) (hne : s ≠ t) :
    ∀ c ∈ s.head?, Text.isSpace c = true := by
  obtain ⟨run, h⟩ := h
  cases run with
  | nil => exact absurd h.text_eq hne
  | cons c run =>
    rw [h.text_eq]
    rintro _ ⟨⟩
    exact h.all c List.mem_cons_self

theorem combinatorOf?_eq_some {relation : Combinator} (h : combinatorOf? c = some relation) :
    c = '>' ∨ c = '+' ∨ c = '~' := by
  unfold combinatorOf? at h
  split at h
  · exact .inl rfl
  · exact .inr (.inl rfl)
  · exact .inr (.inr rfl)
  · cases h

theorem isSimpleMark_iff : isSimpleMark c = true ↔ c = '.' ∨ c = '#' ∨ c = '[' ∨ c = ':' := by
  simp [isSimpleMark, or_assoc]

theorem endsPart_of_isSpace (h : ∀ c ∈ s.head?, Text.isSpace c = true) : EndsPart s := by
  intro c hc
  have hspace := h c hc
  refine ⟨fun hmark => ?_, ?_⟩
  · rcases isSimpleMark_iff.1 hmark with rfl | rfl | rfl | rfl <;> cases hspace
  · rintro rfl
    cases hspace

theorem endsPart_of_atBoundary (h : atBoundary s.head? = true) : EndsPart s := by
  intro c hc
  rw [Option.mem_def.1 hc, atBoundary, Bool.or_eq_true, decide_eq_true_eq, decide_eq_true_eq] at h
  rcases h with rfl | rfl
  · exact ⟨nofun, nofun⟩
  · exact ⟨nofun, nofun⟩

theorem IsTail.endsPart {parts : List Part} (h : IsTail s parts t)
    (ht : atBoundary t.head? = true) : EndsPart s := by
  cases h with
  | nil h =>
    by_cases hne : s = t
    · exact hne ▸ endsPart_of_atBoundary ht
    · exact endsPart_of_isSpace (h.head_of_ne hne)
  | @mark _ s₁ _ _ _ c _ _ _ h₀ hmark =>
    by_cases hne : s = c :: s₁
    · rw [hne]
      rintro _ ⟨⟩
      rcases combinatorOf?_eq_some hmark with rfl | rfl | rfl <;> exact ⟨nofun, nofun⟩
    · exact endsPart_of_isSpace (h₀.head_of_ne hne)
  | space h₀ hspace => exact endsPart_of_isSpace (h₀.head_of_ne hspace)

theorem IsSimple.begins {x : Simple} (h : IsSimple s x t) :
    ∃ c ∈ s.head?, isSimpleMark c = true := by
  cases h with
  | hasClass => exact ⟨'.', rfl, rfl⟩
  | hasId => exact ⟨'#', rfl, rfl⟩
  | hasAttribute h =>
    cases h with
    | present => exact ⟨'[', rfl, rfl⟩
    | compared => exact ⟨'[', rfl, rfl⟩
  | plain => exact ⟨':', rfl, rfl⟩
  | counting => exact ⟨':', rfl, rfl⟩
  | not => exact ⟨':', rfl, rfl⟩
  | contains => exact ⟨':', rfl, rfl⟩

theorem IsSimples.begins {xs : List Simple} (h : IsSimples s xs t) (hsome : xs ≠ []) :
    ∃ c ∈ s.head?, isSimpleMark c = true := by
  cases h with
  | nil => exact absurd rfl hsome
  | cons h => exact h.begins

theorem IsPart.begins {relation : Combinator} {p : Part} (h : IsPart relation s p t) :
    BeginsPart s := by
  cases h with
  | star => exact ⟨'*', rfl, .inl rfl⟩
  | named hname =>
    have hbegins := hname.begins
    cases s with
    | nil => cases hbegins
    | cons c s => exact ⟨c, rfl, .inr (.inl hbegins)⟩
  | simples hsome h =>
    obtain ⟨c, hc, hmark⟩ := h.begins hsome
    exact ⟨c, hc, .inr (.inr hmark)⟩

/-- Neither an end nor a mark of a combinator begins a part. -/
theorem BeginsPart.not_mark (h : BeginsPart s) :
    ¬ atBoundary s.head? = true ∧ s.head?.bind combinatorOf? = none := by
  obtain ⟨c, hc, h⟩ := h
  have hne : ∀ d : Char, (d = '*' ∨ isNameStart d = true ∨ isSimpleMark d = true) →
      d ∉ [',', ')', '>', '+', '~'] := by
    intro d hd hmem
    simp only [List.mem_cons, List.not_mem_nil, or_false] at hmem
    rcases hmem with rfl | rfl | rfl | rfl | rfl <;> revert hd <;> decide
  have hc' := hne c h
  rw [Option.mem_def.1 hc, Option.bind_some]
  refine ⟨fun hboundary => ?_, ?_⟩
  · rw [atBoundary, Bool.or_eq_true, decide_eq_true_eq, decide_eq_true_eq] at hboundary
    rcases hboundary with rfl | rfl <;> exact hc' (by decide)
  · cases hmark : combinatorOf? c with
    | none => rfl
    | some relation =>
      rcases combinatorOf?_eq_some hmark with rfl | rfl | rfl <;> exact absurd (by decide) hc'

/-! ### Reading -/

/-- An argument in brackets behind the name of a pseudo-class is read if its reader takes it. -/
theorem reads_of_argument {s₀ s₁ s₂ s₃ rest : List Char} {n : String} {argument : OfText Simple}
    {x : Simple} (hname : IsIdentifier s₀ n ('(' :: s₁)) (h₁ : IsSpaces s₁ s₂)
    (hargument : pseudoClassWith? inner (Text.lower n) = some argument)
    (h₂ : Reads argument s₂ x s₃) (h₃ : IsSpaces s₃ (')' :: rest)) :
    Reads (simpleStep inner) (':' :: s₀) (some x) rest := by
  refine reads_simpleStep_some.2 (.inr (.inr (.inr (reads_pseudoClass.2 ?_))))
  exact ⟨s₀, n, _, rfl, hname, reads_pseudoClassNamed.2 (.inl ⟨s₁, s₂, argument, s₃, rfl, h₁,
    hargument, h₂, h₃⟩)⟩

/-- A list is read chain by chain. -/
def ReadsList (inner : OfText (List Chain)) (s : List Char) (chains : List Chain) (t : List Char) :
    Prop :=
  ∃ first rest u, chains = first :: rest ∧ Reads (Selector.chain inner) s first u ∧
    Steps (chainStep inner) u rest t

theorem ReadsList.reads {depth : Nat} {L : List Chain} (h : ReadsList (chains depth) s L t) :
    Reads (chains (depth + 1)) s L t := by
  obtain ⟨first, rest, u, rfl, hfirst, hrest⟩ := h
  have hshort := shortens_chainStep (isList_of_reads_chains depth)
  rw [chains, reads_bind]
  exact ⟨first, u, hfirst, reads_bind_pure.2 ⟨rest, hrest.reads_many hshort, rfl⟩⟩

theorem reads_chain_of_isSpaces {chain : Chain} (h : IsSpaces s u) :
    Reads (Selector.chain inner) s chain t ↔ Reads (Selector.chain inner) u chain t := by
  rw [reads_chain, reads_chain]
  constructor
  · rintro ⟨v, hv, h'⟩
    obtain rfl := h.unique hv
    exact ⟨u, h.self, h'⟩
  · rintro ⟨v, hv, h'⟩
    obtain rfl := h.self.unique hv
    exact ⟨u, h, h'⟩

theorem IsPart.reads_required {relation : Combinator} {p : Part} (h : IsPart relation s p t)
    (hreads : Reads (part inner relation) s p t) : Reads (requiredPart inner relation) s p t :=
  reads_requiredPart.2 ⟨h.begins.not_mark.1, hreads⟩

theorem exists_isSpaces (s : List Char) : ∃ t, IsSpaces s t := by
  obtain ⟨run, t, h⟩ := exists_isRun Text.isSpace s
  exact ⟨t, run, h⟩

theorem ReadsList.cons {chain : Chain} {chains : List Chain}
    (h : Reads (Selector.chain inner) s chain (',' :: u)) (h' : ReadsList inner u chains t) :
    ReadsList inner s (chain :: chains) t := by
  obtain ⟨first, rest, v, rfl, hfirst, hrest⟩ := h'
  obtain ⟨w, hw⟩ := exists_isSpaces u
  refine ⟨chain, first :: rest, ',' :: u, rfl, h, .more (reads_chainStep_some.2 ?_) hrest⟩
  exact ⟨u, w, rfl, hw, (reads_chain_of_isSpaces hw).1 hfirst⟩

/-- A list of chains takes the white space at its end. -/
theorem IsTail.ends {parts : List Part} (h : IsTail s parts t) : IsSpaces t t := by
  induction parts generalizing s with
  | nil =>
    cases h with
    | nil h => exact h.self
  | cons part parts ih =>
    cases h with
    | mark _ _ _ _ htail => exact ih htail
    | space _ _ _ htail => exact ih htail

theorem IsChain.ends {chain : Chain} (h : IsChain s chain t) : IsSpaces t t := by
  cases h with
  | mk _ _ _ htail => exact htail.ends

theorem IsList.ends {chains : List Chain} (h : IsList s chains t) : IsSpaces t t := by
  induction chains generalizing s with
  | nil => cases h
  | cons chain chains ih =>
    cases h with
    | last h => exact h.ends
    | comma _ h => exact ih h

/-- The readers nest as deep as there are characters, and each argument of `:not` is shorter than
the text that it stands in. -/
theorem length_of_argument {s₀ s₁ s₂ : List Char} {n : String} {depth : Nat}
    (hname : IsIdentifier s₀ n ('(' :: s₁)) (h₁ : IsSpaces s₁ s₂)
    (hlen : (':' :: s₀).length ≤ depth + 1) : s₂.length ≤ depth := by
  have := hname.length_lt
  have := h₁.length_le
  simp only [List.length_cons] at *
  omega

mutual

/-- A list up to the end of the text or to a closing bracket. -/
theorem IsList.readsList {s t : List Char} {L : List Chain} {depth : Nat} (h : IsList s L t)
    (hlen : s.length ≤ depth + 1) (ht : atBoundary t.head? = true) (hcomma : t.head? ≠ some ',') :
    ReadsList (chains depth) s L t := by
  cases h with
  | last h => exact ⟨_, [], t, rfl, h.reads hlen ht, .stop (reads_chainStep_none.2 ⟨rfl, hcomma⟩)⟩
  | comma h h' =>
    have hlen' := Nat.le_trans (Nat.le_of_lt (Nat.lt_of_succ_lt h.length_lt)) hlen
    exact .cons (h.reads hlen rfl) (h'.readsList hlen' ht hcomma)

theorem IsChain.reads {s t : List Char} {chain : Chain} {depth : Nat} (h : IsChain s chain t)
    (hlen : s.length ≤ depth + 1) (ht : atBoundary t.head? = true) :
    Reads (Selector.chain (chains depth)) s chain t := by
  cases h with
  | mk hspaces hlead hpart htail =>
    have hshort := shortens_partStep (isList_of_reads_chains depth)
    have hlen' := Nat.le_trans (Nat.le_trans hlead.length_le hspaces.length_le) hlen
    have hfirst := hpart.reads_required (hpart.reads hlen' (htail.endsPart ht))
    have hlen'' := Nat.le_trans (Nat.le_of_lt hpart.length_lt) hlen'
    have hparts := (htail.steps hlen'' ht).reads_many hshort
    refine reads_chain.2 ⟨_, hspaces, ?_⟩
    cases hlead with
    | mark hmark h => exact .inl ⟨_, _, _, _, _, _, _, rfl, hmark, h, hfirst, hparts, rfl⟩
    | none => exact .inr ⟨hpart.begins.not_mark.2, _, _, _, hfirst, hparts, rfl⟩

theorem IsTail.steps {s t : List Char} {parts : List Part} {depth : Nat} (h : IsTail s parts t)
    (hlen : s.length ≤ depth + 1) (ht : atBoundary t.head? = true) :
    Steps (partStep (chains depth)) s parts t := by
  cases h with
  | nil h => exact .stop (reads_partStep_none.2 ⟨h, ht⟩)
  | @mark _ _ _ _ _ c _ _ _ h₀ hmark h₁ hpart htail =>
    have hle := h₀.length_le
    rw [List.length_cons] at hle
    have hlen' := Nat.le_trans h₁.length_le (Nat.le_trans (Nat.le_of_succ_le hle) hlen)
    have hreads := hpart.reads_required (hpart.reads hlen' (htail.endsPart ht))
    have hlen'' := Nat.le_trans (Nat.le_of_lt hpart.length_lt) hlen'
    have hboundary : ¬ atBoundary (some c) = true := by
      rcases combinatorOf?_eq_some hmark with rfl | rfl | rfl <;> exact nofun
    refine .more (reads_partStep_some.2 ⟨_, h₀, hboundary, ?_⟩) (htail.steps hlen'' ht)
    exact .inl ⟨c, _, _, _, rfl, hmark, h₁, hreads⟩
  | space h₀ hspace hpart htail =>
    have hlen' := Nat.le_trans h₀.length_le hlen
    have hreads := hpart.reads_required (hpart.reads hlen' (htail.endsPart ht))
    have hlen'' := Nat.le_trans (Nat.le_of_lt hpart.length_lt) hlen'
    obtain ⟨hboundary, hmark⟩ := hpart.begins.not_mark
    refine .more (reads_partStep_some.2 ⟨_, h₀, hboundary, ?_⟩) (htail.steps hlen'' ht)
    exact .inr ⟨hmark, hspace, hreads⟩

theorem IsPart.reads {relation : Combinator} {s t : List Char} {p : Part} {depth : Nat}
    (h : IsPart relation s p t) (hlen : s.length ≤ depth + 1) (ht : EndsPart t) :
    Reads (part (chains depth) relation) s p t := by
  have hshort := shortens_simpleStep (isList_of_reads_chains depth)
  cases h with
  | star h =>
    have hsteps := h.steps (Nat.le_of_succ_le hlen) ht
    exact reads_part.2 (.inl ⟨_, _, rfl, hsteps.reads_many hshort, rfl⟩)
  | named hname h =>
    have hsteps := h.steps (Nat.le_trans (Nat.le_of_lt hname.length_lt) hlen) ht
    have hstar : s.head? ≠ some '*' := by
      intro hs
      have hbegins := hname.begins
      rw [hs] at hbegins
      cases hbegins
    exact reads_part.2 (.inr (.inl ⟨hstar, _, _, _, hname, hsteps.reads_many hshort, rfl⟩))
  | simples hsome h =>
    have hsteps := h.steps hlen ht
    obtain ⟨c, hc, hmark⟩ := h.begins hsome
    have hbegins : s.head? ≠ some '*' ∧ ¬ beginsName s.head? = true := by
      rw [Option.mem_def.1 hc]
      rcases isSimpleMark_iff.1 hmark with rfl | rfl | rfl | rfl <;> exact ⟨nofun, nofun⟩
    exact reads_part.2 (.inr (.inr ⟨hbegins.1, hbegins.2, _, hsome, hsteps.reads_many hshort, rfl⟩))

theorem IsSimples.steps {s t : List Char} {simples : List Simple} {depth : Nat}
    (h : IsSimples s simples t) (hlen : s.length ≤ depth + 1) (ht : EndsPart t) :
    Steps (simpleStep (chains depth)) s simples t := by
  cases h with
  | nil => exact .stop (reads_simpleStep_none.2 ⟨rfl, fun c hc => (ht c hc).1⟩)
  | @cons _ u _ _ xs h h' =>
    have hlen' := Nat.le_trans (Nat.le_of_lt h.length_lt) hlen
    have hbracket : u.head? ≠ some '(' := by
      intro hu
      cases xs with
      | nil =>
        cases h' with
        | nil => exact (ht '(' hu).2 rfl
      | cons =>
        obtain ⟨c, hc, hmark⟩ := h'.begins (List.cons_ne_nil _ _)
        obtain rfl := Option.some.inj (hu.symm.trans hc)
        cases hmark
    exact .more (h.reads hlen hbracket) (h'.steps hlen' ht)

theorem IsSimple.reads {s t : List Char} {x : Simple} {depth : Nat} (h : IsSimple s x t)
    (hlen : s.length ≤ depth + 1) (ht : t.head? ≠ some '(') :
    Reads (simpleStep (chains depth)) s (some x) t := by
  cases h with
  | hasClass h => exact reads_simpleStep_some.2 (.inl ⟨_, _, rfl, h, rfl⟩)
  | hasId h => exact reads_simpleStep_some.2 (.inr (.inl ⟨_, _, rfl, h, rfl⟩))
  | hasAttribute h => exact reads_simpleStep_some.2 (.inr (.inr (.inl ⟨_, h, rfl⟩)))
  | plain hname h =>
    refine reads_simpleStep_some.2 (.inr (.inr (.inr (reads_pseudoClass.2 ?_))))
    exact ⟨_, _, _, rfl, hname, reads_pseudoClassNamed.2 (.inr ⟨ht, h, rfl⟩)⟩
  | @counting _ _ _ _ _ _ f counts hname h h₁ hformula h₃ =>
    refine reads_of_argument hname h₁ (pseudoClassWith?_eq_some.2 (.inl ⟨counts, h, rfl⟩)) ?_ h₃
    exact reads_bind_pure.2 ⟨f, hformula.reads_nth, rfl⟩
  | not hname h h₁ hlist h₃ =>
    have hlen' := length_of_argument hname h₁ hlen
    refine reads_of_argument hname h₁ (pseudoClassWith?_eq_some.2 (.inr (.inl ⟨h, rfl⟩))) ?_ h₃
    obtain rfl := hlist.ends.unique h₃
    refine reads_bind_pure.2 ⟨_, ?_, rfl⟩
    cases depth with
    | zero => exact absurd (Nat.lt_of_lt_of_le hlist.length_lt hlen') (Nat.not_lt_zero _)
    | succ depth => exact (hlist.readsList hlen' rfl nofun).reads
  | contains hname h h₁ hvalue h₃ =>
    refine reads_of_argument hname h₁ (pseudoClassWith?_eq_some.2 (.inr (.inr ⟨h, rfl⟩))) ?_ h₃
    exact reads_bind_pure.2 ⟨_, reads_stringOr_identifier.2 hvalue, rfl⟩

end

theorem IsSelector.reads {L : List Chain} (h : IsSelector s L) : Reads whole s L [] := by
  cases h with
  | blank h => exact reads_whole.2 ⟨[], h, .inl ⟨rfl, rfl, rfl⟩⟩
  | @list u _ h h' =>
    have hpos := h'.length_lt
    have hsome : u ≠ [] := List.ne_nil_of_length_pos hpos
    obtain ⟨depth, hdepth⟩ := Nat.exists_eq_add_one_of_ne_zero (Nat.ne_of_gt hpos)
    refine reads_whole.2 ⟨u, h, .inr ⟨hsome, ?_, rfl⟩⟩
    rw [hdepth]
    exact (h'.readsList (Nat.le_of_eq hdepth) rfl nofun).reads

/-- The readers take a text just if it is a selector, and return what it stands for. -/
theorem reads_whole_iff {L : List Chain} : (∃ t, Reads whole s L t) ↔ IsSelector s L :=
  ⟨fun ⟨_, h⟩ => isSelector_of_reads h, fun h => ⟨[], h.reads⟩⟩

end MarkupTree.Selector
