import MarkupTree.Proofs.Selector.Printer

/-!
# Texts with more behind them

What a rule reads at the beginning of a text does not change with more text behind it, if something
of the text is left anyway, or if nothing that rules read goes on into what is behind it.
-/

namespace MarkupTree

/-- The text of a simple selector ends with a name, and not with a bracket. -/
def Simple.endsInName : Simple → Bool
  | .hasAttribute _ => false
  | .nthChild _ => false
  | .nthLastChild _ => false
  | .nthOfType _ => false
  | .nthLastOfType _ => false
  | .not _ => false
  | .contains _ => false
  | _ => true

namespace Selector

variable {s t x : List Char}

/-- No rule reads on from the end of a text into this one. -/
def StopsRules (x : List Char) : Prop := StopsName x ∧ ∀ c ∈ x.head?, ¬ Text.isSpace c = true

/-- Where a rule leaves the text `t`, it stops as well with `x` behind the text. -/
def Seam (t x : List Char) : Prop := t = [] → StopsRules x

theorem seam_cons (c : Char) (t x : List Char) : Seam (c :: t) x := nofun

theorem seam_of_stopsRules (h : StopsRules x) (t : List Char) : Seam t x := fun _ => h

/-- A rule that stops later than another one before the same text stops before less of it. -/
theorem Seam.mono (h : Seam t x) (hle : t.length ≤ s.length) : Seam s x := by
  rintro rfl
  exact h (List.length_eq_zero_iff.1 (Nat.le_zero.1 hle))

/-- What holds of what the text begins with, and of what stops all rules, holds of what the longer
text begins with. -/
theorem Seam.head? {q : Char → Prop} (h : Seam t x) (ht : ∀ c ∈ t.head?, q c)
    (hx : StopsRules x → ∀ c ∈ x.head?, q c) : ∀ c ∈ (t ++ x).head?, q c := by
  cases t with
  | nil => exact hx (h rfl)
  | cons c t => exact ht

/-! ### White space, names and values -/

theorem IsRun.append {kind : Char → Bool} {run : List Char} (h : IsRun kind s run t)
    (hx : ∀ c ∈ (t ++ x).head?, ¬ kind c = true) : IsRun kind (s ++ x) run (t ++ x) :=
  ⟨by rw [h.text_eq, List.append_assoc], h.all, hx⟩

theorem IsSpaces.append (h : IsSpaces s t) (hx : Seam t x) : IsSpaces (s ++ x) (t ++ x) := by
  obtain ⟨run, h⟩ := h
  exact ⟨run, h.append (hx.head? h.ends And.right)⟩

theorem IsOptionalSpace.append (h : IsOptionalSpace s t) (hx : Seam t x) :
    IsOptionalSpace (s ++ x) (t ++ x) := by
  cases h with
  | space => exact .space _
  | none h =>
    have hne : ∀ c ∈ s.head?, c ≠ ' ' := by
      rintro _ hc rfl
      exact h hc
    refine .none fun hspace => hx.head? hne (fun hstops c hc => ?_) ' ' hspace rfl
    rintro rfl
    exact hstops.2 ' ' hc rfl

theorem isNameChar_of_isHexDigit {c : Char} (h : Text.isHexDigit c = true) :
    isNameChar c = true := by
  have hsize := utf8Size_of_isHexDigit h
  rw [Char.utf8Size_eq_one_iff, UInt32.le_iff_toNat_le] at hsize
  exact Text.forall_ascii (P := fun c => Text.isHexDigit c = true → isNameChar c = true)
    (by decide) (Nat.lt_succ_of_le hsize) h

theorem IsEscape.append {c : Char} (h : IsEscape s c t) (hx : Seam t x) :
    IsEscape (s ++ x) c (t ++ x) := by
  cases h with
  | literal _ h => exact .literal _ h
  | @code digits after _ _ hsome hmost hall hends hcode hspace =>
    -- Fewer than six digits end before a character that is no digit, and none stops all rules.
    have hends' := (hx.mono hspace.length_le).head? (q := fun d => ¬ Text.isHexDigit d = true)
    rw [List.append_assoc]
    refine .code hsome hmost hall (hends.imp_right fun h => hends' h fun hstops d hd => ?_) hcode
      (hspace.append hx)
    exact mt isNameChar_of_isHexDigit (hstops.1 d hd).1

theorem IsLetter.append {c : Char} (h : IsLetter s c t) (hx : Seam t x) :
    IsLetter (s ++ x) c (t ++ x) := by
  cases h with
  | plain _ h => exact .plain _ h
  | escaped h => exact .escaped (h.append hx)

theorem IsLetters.append {cs : List Char} (h : IsLetters s cs t) (hx : Seam t x) :
    IsLetters (s ++ x) cs (t ++ x) := by
  induction h with
  | stop h => exact .stop (hx.head? h And.left)
  | more h h' ih => exact .more (h.append (hx.mono h'.length_le)) (ih hx)

theorem IsName.append {n : String} (h : IsName s n t) (hx : Seam t x) :
    IsName (s ++ x) n (t ++ x) := by
  cases h with
  | mk hsome h => exact .mk hsome (h.append hx)

theorem IsIdentifier.begins_append {n : String} (h : IsIdentifier s n t) (x : List Char) :
    beginsName (s ++ x).head? = true := by
  have hbegins := h.begins
  cases s with
  | nil => cases hbegins
  | cons c s => exact hbegins

theorem IsIdentifier.append {n : String} (h : IsIdentifier s n t) (hx : Seam t x) :
    IsIdentifier (s ++ x) n (t ++ x) := ⟨h.begins_append x, h.isName.append hx⟩

theorem IsQuoted.append {q : Char} {cs : List Char} (h : IsQuoted q s cs t) (x : List Char) :
    IsQuoted q (s ++ x) cs (t ++ x) := by
  induction h with
  | close => exact .close _
  | plain hq hplain _ ih => exact .plain hq hplain ih
  | escaped c _ ih => exact .escaped c ih

theorem IsValue.append {IsWord : List Char → String → List Char → Prop} {v : String}
    (hword : ∀ {s t v}, IsWord s v t → Seam t x → IsWord (s ++ x) v (t ++ x))
    (h : IsValue IsWord s v t) (hx : Seam t x) : IsValue IsWord (s ++ x) v (t ++ x) := by
  cases h with
  | string hq h => exact .string hq (h.append x)
  | word h => exact .word (hword h hx)

/-! ### Attributes and formulas -/

theorem IsOperator.append {o : AttributeOperator} (h : IsOperator s o t) (x : List Char) :
    IsOperator (s ++ x) o (t ++ x) := by
  cases h with
  | equals => exact .equals _
  | other _ h => exact .other _ h

theorem IsAttributeTest.append {test : AttributeTest} (h : IsAttributeTest s test t)
    (x : List Char) : IsAttributeTest (s ++ x) test (t ++ x) := by
  cases h with
  | present h₀ hname h₂ =>
    have hx₂ := seam_cons ']' t x
    have hx₁ := hx₂.mono h₂.length_le
    have hx₀ := hx₁.mono (Nat.le_of_lt hname.length_lt)
    exact .present (h₀.append hx₀) (hname.append hx₁) (h₂.append hx₂)
  | compared h₀ hname h₂ ho h₄ hvalue h₆ =>
    have hx₆ := seam_cons ']' t x
    have hx₅ := hx₆.mono h₆.length_le
    have hx₄ := hx₅.mono (Nat.le_of_lt (hvalue.length_lt IsName.length_lt))
    have hx₃ := hx₄.mono h₄.length_le
    have hx₂ := hx₃.mono (Nat.le_of_lt ho.length_lt)
    have hx₁ := hx₂.mono h₂.length_le
    have hx₀ := hx₁.mono (Nat.le_of_lt hname.length_lt)
    exact .compared (h₀.append hx₀) (hname.append hx₁) (h₂.append hx₂) (ho.append x)
      (h₄.append hx₄) (hvalue.append IsName.append hx₅) (h₆.append hx₆)

/-- A formula ends at the first closing bracket, which is in the text. -/
theorem IsFormula.append {f : Nth} (h : IsFormula s f t) (x : List Char) :
    IsFormula (s ++ x) f (t ++ x) := by
  cases h with
  | mk hopen h =>
    rw [List.append_assoc]
    exact .mk hopen h

/-! ### Selectors -/

theorem IsLead.append {relation : Combinator} (h : IsLead s relation t) (hx : Seam t x) :
    IsLead (s ++ x) relation (t ++ x) := by
  cases h with
  | mark h h' => exact .mark h (h'.append hx)
  | none => exact .none _

/-- The argument of a pseudo-class ends at a bracket. -/
theorem append_argument {s₀ s₁ s₂ s₃ rest : List Char} {n : String}
    (hname : IsIdentifier s₀ n ('(' :: s₁)) (h₁ : IsSpaces s₁ s₂) (h₂ : s₃.length ≤ s₂.length)
    (h₃ : IsSpaces s₃ (')' :: rest)) (x : List Char) :
    IsIdentifier (s₀ ++ x) n ('(' :: (s₁ ++ x)) ∧ IsSpaces (s₁ ++ x) (s₂ ++ x) ∧ Seam s₃ x ∧
      IsSpaces (s₃ ++ x) (')' :: (rest ++ x)) := by
  have hx₃ := (seam_cons ')' rest x).mono h₃.length_le
  have hx₂ := hx₃.mono h₂
  exact ⟨hname.append (seam_cons '(' s₁ x), h₁.append hx₂, hx₃, h₃.append (seam_cons ')' rest x)⟩

theorem endsInName_of_plain {name : String} {a : Simple} (h : plainPseudoClass? name = some a) :
    a.endsInName = true := by
  unfold plainPseudoClass? at h
  split at h <;> cases h <;> rfl

mutual

theorem IsList.append : ∀ {s t : List Char} {chains : List Chain}, IsList s chains t → Seam t x →
    IsList (s ++ x) chains (t ++ x)
  | _, _, _, .last h, hx => .last (h.append hx)
  | _, _, _, .comma h h', hx => .comma (h.append (seam_cons ',' _ x)) (h'.append hx)

theorem IsChain.append : ∀ {s t : List Char} {chain : Chain}, IsChain s chain t → Seam t x →
    IsChain (s ++ x) chain (t ++ x)
  | _, _, _, .mk hspaces hlead hpart htail, hx =>
    have hx₃ := hx.mono htail.length_le
    have hx₂ := hx₃.mono (Nat.le_of_lt hpart.length_lt)
    .mk (hspaces.append (hx₂.mono hlead.length_le)) (hlead.append hx₂) (hpart.append hx₃)
      (htail.append hx)

theorem IsTail.append : ∀ {s t : List Char} {parts : List Part}, IsTail s parts t → Seam t x →
    IsTail (s ++ x) parts (t ++ x)
  | _, _, _, .nil h, hx => .nil (h.append hx)
  | _, _, _, .mark h₀ hmark h₁ hpart htail, hx =>
    have hx₃ := hx.mono htail.length_le
    have hx₂ := hx₃.mono (Nat.le_of_lt hpart.length_lt)
    .mark (h₀.append (seam_cons _ _ x)) hmark (h₁.append hx₂) (hpart.append hx₃) (htail.append hx)
  | _, _, _, .space h₀ hspace hpart htail, hx =>
    have hx₂ := hx.mono htail.length_le
    have hx₁ := hx₂.mono (Nat.le_of_lt hpart.length_lt)
    .space (h₀.append hx₁) (mt List.append_cancel_right hspace) (hpart.append hx₂) (htail.append hx)

theorem IsPart.append : ∀ {relation : Combinator} {s t : List Char} {part : Part},
    IsPart relation s part t → Seam t x → IsPart relation (s ++ x) part (t ++ x)
  | _, _, _, _, .star h, hx => .star (h.append hx)
  | _, _, _, _, .named hname h, hx => .named (hname.append (hx.mono h.length_le)) (h.append hx)
  | _, _, _, _, .simples hsome h, hx => .simples hsome (h.append hx)

theorem IsSimples.append : ∀ {s t : List Char} {simples : List Simple}, IsSimples s simples t →
    Seam t x → IsSimples (s ++ x) simples (t ++ x)
  | _, _, _, .nil _, _ => .nil _
  | _, _, _, .cons h h', hx => .cons (h.append fun _ => hx.mono h'.length_le) (h'.append hx)

/-- A simple selector that ends with a bracket ends there whatever comes behind it. -/
theorem IsSimple.append {s t : List Char} {simple : Simple} (h : IsSimple s simple t)
    (hx : simple.endsInName = true → Seam t x) : IsSimple (s ++ x) simple (t ++ x) := by
  cases h with
  | hasClass h => exact .hasClass (h.append (hx rfl))
  | hasId h => exact .hasId (h.append (hx rfl))
  | hasAttribute h => exact .hasAttribute (h.append x)
  | plain hname h => exact .plain (hname.append (hx (endsInName_of_plain h))) h
  | counting hname h h₁ hformula h₃ =>
    obtain ⟨hname', h₁', -, h₃'⟩ := append_argument hname h₁ hformula.length_le h₃ x
    exact .counting hname' h h₁' (hformula.append x) h₃'
  | not hname h h₁ hlist h₃ =>
    obtain ⟨hname', h₁', hx₃, h₃'⟩ :=
      append_argument hname h₁ (Nat.le_of_lt hlist.length_lt) h₃ x
    exact .not hname' h h₁' (hlist.append hx₃) h₃'
  | contains hname h h₁ hvalue h₃ =>
    have hlt := hvalue.length_lt IsIdentifier.length_lt
    obtain ⟨hname', h₁', hx₃, h₃'⟩ := append_argument hname h₁ (Nat.le_of_lt hlt) h₃ x
    exact .contains hname' h h₁' (hvalue.append IsIdentifier.append hx₃) h₃'

end

end Selector

end MarkupTree
