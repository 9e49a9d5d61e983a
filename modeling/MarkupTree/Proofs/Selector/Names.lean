import MarkupTree.Proofs.Selector.Reader
import MarkupTree.Selector.Syntax

/-!
# Words of selector texts

The readers of white space, names, strings, operators, attributes and formulas read just what the
rules for them say.
-/

namespace MarkupTree.Selector

open Reader

variable {s t : List Char} {c : Char}

/-! ### White space -/

theorem reads_spaceStep_some {a : Char} :
    Reads spaceStep s (some a) t ↔ s = a :: t ∧ Text.isSpace a = true := by
  rw [spaceStep, reads_peek_bind]
  cases s with
  | nil => simp
  | cons c s =>
    rw [List.head?_cons]
    simp only [List.cons.injEq]
    by_cases h : Text.isSpace c = true
    · rw [if_pos h, reads_bump_cons, Option.some.injEq]
      constructor
      · rintro ⟨rfl, rfl⟩
        exact ⟨⟨rfl, rfl⟩, h⟩
      · rintro ⟨⟨rfl, rfl⟩, -⟩
        exact ⟨rfl, rfl⟩
    · rw [if_neg h, reads_pure]
      constructor
      · rintro ⟨hnone, -⟩
        cases hnone
      · rintro ⟨⟨rfl, rfl⟩, ha⟩
        exact absurd ha h

theorem reads_spaceStep_none :
    Reads spaceStep s none t ↔ t = s ∧ ∀ c ∈ s.head?, ¬ Text.isSpace c = true := by
  rw [spaceStep, reads_peek_bind]
  cases s with
  | nil => simp
  | cons c s =>
    rw [List.head?_cons]
    by_cases h : Text.isSpace c = true
    · simp [h, reads_bump_cons]
    · simp [h]

theorem shortens_spaceStep : Shortens spaceStep := by
  intro s a t h
  rw [(reads_spaceStep_some.1 h).1]
  exact Nat.lt_succ_self _

theorem steps_spaceStep_iff {run : List Char} :
    Steps spaceStep s run t ↔ IsRun Text.isSpace s run t := by
  constructor
  · intro h
    induction h with
    | stop h =>
      obtain ⟨rfl, hends⟩ := reads_spaceStep_none.1 h
      exact ⟨rfl, nofun, hends⟩
    | more h _ ih =>
      obtain ⟨rfl, hspace⟩ := reads_spaceStep_some.1 h
      refine ⟨congrArg _ ih.text_eq, ?_, ih.ends⟩
      intro c hc
      rcases List.mem_cons.1 hc with rfl | hc
      · exact hspace
      · exact ih.all c hc
  · rintro ⟨rfl, hall, hends⟩
    induction run with
    | nil => exact .stop (reads_spaceStep_none.2 ⟨rfl, hends⟩)
    | cons c run ih =>
      have hc := hall c List.mem_cons_self
      refine .more (reads_spaceStep_some.2 ⟨rfl, hc⟩) (ih fun d hd => ?_)
      exact hall d (List.mem_cons_of_mem c hd)

theorem exists_isRun (kind : Char → Bool) (s : List Char) : ∃ run t, IsRun kind s run t := by
  induction s with
  | nil => exact ⟨[], [], rfl, nofun, nofun⟩
  | cons c s ih =>
    by_cases hc : kind c = true
    · obtain ⟨run, t, rfl, hall, hends⟩ := ih
      refine ⟨c :: run, t, rfl, ?_, hends⟩
      intro d hd
      rcases List.mem_cons.1 hd with rfl | hd
      · exact hc
      · exact hall d hd
    · refine ⟨[], c :: s, rfl, nofun, ?_⟩
      rintro d ⟨⟩
      exact hc

theorem reads_skipSpace_bind {α : Type} {f : Bool → OfText α} {a : α} {u : List Char} :
    Reads (skipSpace >>= f) s a u ↔ ∃ t, IsSpaces s t ∧ Reads (f (s != t)) t a u := by
  have hbool {run t : List Char} (h : IsRun Text.isSpace s run t) :
      (!run.isEmpty) = (s != t) := by
    rw [h.text_eq]
    cases run with
    | nil => simp
    | cons c run =>
      have hne : c :: run ++ t ≠ t := by
        intro heq
        have hlength := congrArg List.length heq
        simp at hlength
        omega
      rw [bne_iff_ne.2 hne]
      rfl
  simp only [skipSpace, bind_assoc, pure_bind]
  rw [reads_bind]
  simp only [reads_many_iff shortens_spaceStep, steps_spaceStep_iff]
  constructor
  · rintro ⟨run, t, h, hf⟩
    exact ⟨t, ⟨run, h⟩, hbool h ▸ hf⟩
  · rintro ⟨t, ⟨run, h⟩, hf⟩
    exact ⟨run, t, h, hbool h ▸ hf⟩

/-! ### Names -/

theorem reads_eat_space_bind {α : Type} {f : Bool → OfText α} {a : α} {u : List Char}
    (hf : f true = f false) : Reads (eat ' ' >>= f) s a u ↔
      ∃ t, IsOptionalSpace s t ∧ Reads (f true) t a u := by
  rw [reads_eat_bind]
  constructor
  · rintro (⟨t, rfl, h⟩ | ⟨hs, h⟩)
    · exact ⟨t, .space t, h⟩
    · exact ⟨s, .none hs, hf ▸ h⟩
  · rintro ⟨t, hs, h⟩
    cases hs with
    | space => exact .inl ⟨t, rfl, h⟩
    | none hs => exact .inr ⟨hs, hf ▸ h⟩

theorem takeWhile_take_iff {p : Char → Bool} {digits after : List Char} {n : Nat} :
    ((digits ++ after).take n).takeWhile p = digits ↔ digits.length ≤ n ∧
      (∀ d ∈ digits, p d = true) ∧ (digits.length = n ∨ ∀ d ∈ after.head?, ¬ p d = true) := by
  induction digits generalizing n with
  | nil =>
    cases n with
    | zero => simp
    | succ n => cases after <;> simp [List.takeWhile_cons]
  | cons d digits ih =>
    cases n with
    | zero => simp
    | succ n =>
      rw [List.cons_append, List.take_succ_cons, List.takeWhile_cons]
      by_cases hd : p d = true
      · simp [hd, ih]
      · simp [hd]

theorem utf8Size_of_isHexDigit (h : Text.isHexDigit c = true) : c.utf8Size = 1 := by
  have hascii {b d : Char} (hbounds : (b ≤ c && c ≤ d) = true) (hd : d.toNat ≤ 127) :
      c.utf8Size = 1 := by
    have hc : c ≤ d := of_decide_eq_true (Bool.and_eq_true_iff.1 hbounds).2
    rw [Char.utf8Size_eq_one_iff, UInt32.le_iff_toNat_le]
    exact Nat.le_trans (Char.le_def.1 hc) hd
  simp only [Text.isHexDigit, Text.hexDigit?] at h
  split at h
  · next hdigit => exact hascii hdigit (by decide)
  · split at h
    · next hlower => exact hascii hlower (by decide)
    · split at h
      · next hupper => exact hascii hupper (by decide)
      · cases h

theorem utf8Length_hexDigits {digits : List Char} (h : ∀ d ∈ digits, Text.isHexDigit d = true) :
    Text.utf8Length digits = digits.length := by
  induction digits with
  | nil => rfl
  | cons d digits ih =>
    rw [Text.utf8Length_cons, utf8Size_of_isHexDigit (h d List.mem_cons_self),
      ih fun e he => h e (List.mem_cons_of_mem d he), List.length_cons, Nat.add_comm]

theorem escapeDigits_spec (s : List Char) : ∃ digits after : List Char, s = digits ++ after ∧
    (s.take 6).takeWhile Text.isHexDigit = digits ∧ (∀ d ∈ digits, Text.isHexDigit d = true) := by
  refine ⟨(s.take 6).takeWhile Text.isHexDigit,
    (s.take 6).dropWhile Text.isHexDigit ++ s.drop 6, ?_, rfl,
    fun d hd => List.all_eq_true.1 List.all_takeWhile d hd⟩
  rw [← List.append_assoc, List.takeWhile_append_dropWhile, List.take_append_drop]

/-- What an escape begins with: its digits, if any. -/
theorem isEscape_iff {digits after : List Char} (hs : s = digits ++ after)
    (hdigits : (s.take 6).takeWhile Text.isHexDigit = digits) : IsEscape s c t ↔
      (digits = [] ∧ s = c :: t) ∨ (digits ≠ [] ∧ charOf? (Text.hexValue digits) = some c ∧
        IsOptionalSpace after t) := by
  constructor
  · intro h
    cases h with
    | literal _ hliteral =>
      rw [List.take_succ_cons, List.takeWhile_cons, if_neg hliteral] at hdigits
      exact .inl ⟨hdigits.symm, rfl⟩
    | @code digits' after' _ _ hsome hmost hall hends hcode hspace =>
      rw [takeWhile_take_iff.2 ⟨hmost, hall, hends⟩] at hdigits
      subst hdigits
      obtain rfl := List.append_cancel_left hs
      exact .inr ⟨hsome, hcode, hspace⟩
  · rintro (⟨rfl, rfl⟩ | ⟨hsome, hcode, hspace⟩)
    · refine .literal t fun hhex => ?_
      rw [List.take_succ_cons, List.takeWhile_cons, if_pos hhex] at hdigits
      cases hdigits
    · subst hs
      obtain ⟨hmost, hall, hends⟩ := takeWhile_take_iff.1 hdigits
      exact .code hsome hmost hall hends hcode hspace

theorem reads_escape : Reads escape s c t ↔ IsEscape s c t := by
  obtain ⟨digits, after, hs, hdigits, hhex⟩ := escapeDigits_spec s
  rw [escape, reads_get_bind, reads_ahead_bind, isEscape_iff hs hdigits, hdigits]
  cases digits with
  | nil =>
    simp only [List.length_nil]
    cases s with
    | nil => simp [reads_bump_nil_bind]
    | cons d s =>
      rw [reads_bump_cons_bind, reads_pure]
      simp [eq_comm]
  | cons d digits =>
    have hlength : Text.utf8Length (d :: digits) = digits.length + 1 := utf8Length_hexDigits hhex
    subst hs
    simp only [List.length_cons]
    rw [← hlength, sliceTo_append, pure_bind]
    cases hcode : charOf? (Text.hexValue (d :: digits)) with
    | none => simp
    | some e =>
      simp only [reads_advance_bind, reads_eat_space_bind, reads_pure]
      constructor
      · rintro ⟨_, hspace, rfl, rfl⟩
        exact .inr ⟨List.cons_ne_nil d digits, rfl, hspace⟩
      · rintro (⟨hnil, -⟩ | ⟨-, hcode, hspace⟩)
        · cases hnil
        · cases hcode
          exact ⟨t, hspace, rfl, rfl⟩

theorem reads_nameStep_some : Reads nameStep s (some c) t ↔ IsLetter s c t := by
  rw [nameStep, reads_peek_bind]
  cases s with
  | nil => exact ⟨nofun, nofun⟩
  | cons d s =>
    rw [List.head?_cons]
    constructor
    · intro h
      simp only at h
      split at h
      · next hd =>
        rw [reads_bump_cons_bind, reads_bind] at h
        obtain ⟨e, u, he, h⟩ := h
        obtain ⟨⟨⟩, rfl⟩ := reads_pure.1 h
        rw [hd]
        exact .escaped (reads_escape.1 he)
      · split at h
        · next hd =>
          obtain ⟨⟨⟩, rfl⟩ := reads_bump_cons.1 h
          exact .plain t hd
        · cases (reads_pure.1 h).1
    · intro h
      simp only
      cases h with
      | plain _ hd =>
        have hne : c ≠ '\\' := by
          rintro rfl
          cases hd
        rw [if_neg hne, if_pos hd, reads_bump_cons]
        exact ⟨rfl, rfl⟩
      | escaped h =>
        rw [if_pos rfl, reads_bump_cons_bind, reads_bind]
        exact ⟨c, t, reads_escape.2 h, reads_pure.2 ⟨rfl, rfl⟩⟩

theorem reads_nameStep_none : Reads nameStep s none t ↔
    t = s ∧ ∀ c ∈ s.head?, ¬ isNameChar c = true ∧ c ≠ '\\' := by
  rw [nameStep, reads_peek_bind]
  cases s with
  | nil => simp
  | cons d s =>
    simp only [List.head?_cons]
    split
    · next hd =>
      simp [hd, reads_bump_cons_bind]
    · next hd =>
      by_cases hname : isNameChar d = true
      · simp [hname, reads_bump_cons]
      · simp [hname, hd]

theorem IsOptionalSpace.length_le (h : IsOptionalSpace s t) : t.length ≤ s.length := by
  cases h with
  | space => exact Nat.le_succ _
  | none => exact Nat.le_refl _

theorem IsEscape.length_lt (h : IsEscape s c t) : t.length < s.length := by
  cases h with
  | literal => exact Nat.lt_succ_self _
  | code hsome _ _ _ _ hspace =>
    rw [List.length_append]
    have hpos := List.length_pos_iff.2 hsome
    have hle := hspace.length_le
    omega

theorem IsLetter.length_lt (h : IsLetter s c t) : t.length < s.length := by
  cases h with
  | plain => exact Nat.lt_succ_self _
  | escaped h => exact Nat.lt_succ_of_lt h.length_lt

theorem shortens_nameStep : Shortens nameStep := fun _ _ _ h =>
  (reads_nameStep_some.1 h).length_lt

theorem steps_nameStep_iff {cs : List Char} : Steps nameStep s cs t ↔ IsLetters s cs t := by
  constructor
  · intro h
    induction h with
    | stop h =>
      obtain ⟨rfl, hends⟩ := reads_nameStep_none.1 h
      exact .stop hends
    | more h _ ih => exact .more (reads_nameStep_some.1 h) ih
  · intro h
    induction h with
    | stop hends => exact .stop (reads_nameStep_none.2 ⟨rfl, hends⟩)
    | more h _ ih => exact .more (reads_nameStep_some.2 h) ih

theorem reads_name {n : String} : Reads name s n t ↔ IsName s n t := by
  rw [name, reads_get_bind, reads_bind]
  simp only [reads_many_iff shortens_nameStep, steps_nameStep_iff]
  constructor
  · rintro ⟨cs, u, h, hn⟩
    cases cs with
    | nil => exact absurd hn not_reads_failAt
    | cons c cs =>
      obtain ⟨rfl, rfl⟩ := reads_pure.1 hn
      exact .mk (List.cons_ne_nil c cs) h
  · intro h
    cases h with
    | @mk cs _ hsome h =>
      refine ⟨cs, t, h, ?_⟩
      cases cs with
      | nil => exact absurd rfl hsome
      | cons => exact reads_pure.2 ⟨rfl, rfl⟩

theorem reads_identifier {n : String} : Reads identifier s n t ↔ IsIdentifier s n t := by
  rw [identifier, reads_peek_bind]
  by_cases h : beginsName s.head? = true
  · rw [if_pos h, reads_name]
    exact ⟨fun hn => ⟨h, hn⟩, fun hn => hn.isName⟩
  · rw [if_neg h]
    exact ⟨fun hn => absurd hn not_reads_fail, fun hn => absurd hn.begins h⟩

theorem IsIdentifier.unique {n m : String} {u : List Char} (h : IsIdentifier s n t)
    (h' : IsIdentifier s m u) : n = m ∧ t = u :=
  (reads_identifier.2 h).unique (reads_identifier.2 h')

/-! ### Strings -/

variable {q : Char}

theorem reads_stringStep {start : List Char} {c? : Option Char} :
    Reads (stringStep start q) s c? t ↔ (c? = none ∧ s = q :: t) ∨
      ∃ c, c? = some c ∧ ((s = c :: t ∧ c ≠ q ∧ c ≠ '\\') ∨ (q ≠ '\\' ∧ s = '\\' :: c :: t)) := by
  rw [stringStep]
  cases s with
  | nil => simp [reads_bump_nil_bind]
  | cons d s =>
    simp only [reads_bump_cons_bind, List.cons.injEq]
    by_cases hq : d = q
    · rw [if_pos hq, reads_pure]
      grind
    · rw [if_neg hq]
      by_cases hd : d = '\\'
      · rw [if_pos hd]
        cases s with
        | nil =>
          rw [reads_bump_nil_bind]
          simp only [not_reads_failAt]
          grind
        | cons e s =>
          rw [reads_bump_cons_bind, reads_pure]
          grind
      · rw [if_neg hd, reads_pure]
        grind

theorem reads_stringStep_some {start : List Char} :
    Reads (stringStep start q) s (some c) t ↔
      (s = c :: t ∧ c ≠ q ∧ c ≠ '\\') ∨ (q ≠ '\\' ∧ s = '\\' :: c :: t) := by
  simp [reads_stringStep]

theorem reads_stringStep_none {start : List Char} :
    Reads (stringStep start q) s none t ↔ s = q :: t := by
  simp [reads_stringStep]

theorem shortens_stringStep (start : List Char) (q : Char) : Shortens (stringStep start q) := by
  intro s c t h
  rcases reads_stringStep_some.1 h with ⟨rfl, -⟩ | ⟨-, rfl⟩
  · exact Nat.lt_succ_self _
  · exact Nat.lt_succ_of_lt (Nat.lt_succ_self _)

theorem steps_stringStep_iff {start cs : List Char} (hq : q ≠ '\\') :
    Steps (stringStep start q) s cs t ↔ IsQuoted q s cs t := by
  constructor
  · intro h
    induction h with
    | stop h =>
      rw [reads_stringStep_none.1 h]
      exact .close _
    | more h _ ih =>
      rcases reads_stringStep_some.1 h with ⟨rfl, hc, hplain⟩ | ⟨-, rfl⟩
      · exact .plain hc hplain ih
      · exact .escaped _ ih
  · intro h
    induction h with
    | close => exact .stop (reads_stringStep_none.2 rfl)
    | plain hc hplain _ ih => exact .more (reads_stringStep_some.2 (.inl ⟨rfl, hc, hplain⟩)) ih
    | escaped c _ ih => exact .more (reads_stringStep_some.2 (.inr ⟨hq, rfl⟩)) ih

theorem ne_backslash_of_isQuote (h : isQuote q = true) : q ≠ '\\' := by
  rintro rfl
  cases h

theorem reads_stringOr {other : OfText String} {IsWord : List Char → String → List Char → Prop}
    (hother : ∀ {s n t}, Reads other s n t ↔ IsWord s n t)
    (hword : ∀ {s n t}, IsWord s n t → ∀ q ∈ s.head?, ¬ isQuote q = true) {n : String} :
    Reads (stringOr other) s n t ↔ IsValue IsWord s n t := by
  rw [stringOr, reads_get_bind, reads_peek_bind]
  cases s with
  | nil =>
    rw [List.head?_nil]
    simp only [hother]
    constructor
    · exact .word
    · rintro (- | h)
      exact h
  | cons q s =>
    simp only [List.head?_cons]
    by_cases hq : isQuote q = true
    · rw [if_pos hq, reads_bump_cons_bind, reads_bind]
      simp only [reads_many_iff (shortens_stringStep _ _), reads_pure,
        steps_stringStep_iff (ne_backslash_of_isQuote hq)]
      constructor
      · rintro ⟨cs, _, h, rfl, rfl⟩
        exact .string hq h
      · intro h
        cases h with
        | string _ h => exact ⟨_, t, h, rfl, rfl⟩
        | word h => exact absurd hq (hword h q rfl)
    · rw [if_neg hq, hother]
      constructor
      · exact .word
      · intro h
        cases h with
        | string h _ => exact absurd h hq
        | word h => exact h

theorem IsLetter.not_isQuote (h : IsLetter s c t) : ∀ q ∈ s.head?, ¬ isQuote q = true := by
  rintro q hs hq
  cases h with
  | plain _ h =>
    obtain rfl := Option.some.inj hs
    rcases Bool.or_eq_true_iff.1 hq with hq | hq
    · obtain rfl := of_decide_eq_true hq
      cases h
    · obtain rfl := of_decide_eq_true hq
      cases h
  | escaped =>
    obtain rfl := Option.some.inj hs
    cases hq

theorem IsName.not_isQuote {n : String} (h : IsName s n t) : ∀ q ∈ s.head?, ¬ isQuote q = true := by
  cases h with
  | mk hsome h =>
    cases h with
    | stop => exact absurd rfl hsome
    | more h => exact h.not_isQuote

/-- A name or a string, as the value of an attribute. -/
theorem reads_stringOr_name {n : String} : Reads (stringOr name) s n t ↔ IsValue IsName s n t :=
  reads_stringOr reads_name IsName.not_isQuote

theorem reads_stringOr_identifier {n : String} :
    Reads (stringOr identifier) s n t ↔ IsValue IsIdentifier s n t :=
  reads_stringOr reads_identifier fun h => h.isName.not_isQuote

/-! ### Attributes -/

theorem reads_operator {o : AttributeOperator} : Reads operator s o t ↔ IsOperator s o t := by
  rw [operator, reads_get_bind]
  cases s with
  | nil =>
    rw [reads_bump_nil_bind, reads_peek_bind]
    exact ⟨nofun, nofun⟩
  | cons c s =>
    rw [reads_bump_cons_bind, reads_peek_bind]
    constructor
    · intro h
      split at h
      · next heq =>
        obtain rfl := Option.some.inj heq
        obtain ⟨rfl, rfl⟩ := reads_pure.1 h
        exact .equals t
      · next heq hnext =>
        obtain rfl := Option.some.inj heq
        obtain ⟨s, rfl⟩ := List.head?_eq_some_iff.1 hnext
        split at h
        · next ho =>
          rw [reads_bump_cons_bind] at h
          obtain ⟨rfl, rfl⟩ := reads_pure.1 h
          exact .other t ho
        · exact absurd h not_reads_failAt
      · exact absurd h not_reads_failAt
    · intro h
      cases h with
      | equals => exact reads_pure.2 ⟨rfl, rfl⟩
      | other _ ho =>
        have hne : c ≠ '=' := by
          rintro rfl
          cases ho
        split
        · next heq => exact absurd (Option.some.inj heq) hne
        · next heq _ =>
          obtain rfl := Option.some.inj heq
          simp only [ho]
          rw [reads_bump_cons_bind]
          exact reads_pure.2 ⟨rfl, rfl⟩
        · next hother => exact absurd rfl (hother c rfl)

theorem IsOperator.head?_ne {o : AttributeOperator} (h : IsOperator s o t) :
    s.head? ≠ some ']' := by
  rintro hs
  cases h with
  | equals => cases hs
  | other _ ho =>
    obtain rfl := Option.some.inj hs
    cases ho

theorem reads_attributeTest {test : AttributeTest} :
    Reads attributeTest s test t ↔ IsAttributeTest s test t := by
  simp only [attributeTest, reads_expect_bind, reads_skipSpace_bind, reads_eat_bind,
    reads_bind_of reads_identifier, reads_bind_of reads_operator, reads_bind_of reads_stringOr_name,
    Bool.false_eq_true, if_true, if_false, reads_pure]
  constructor
  · rintro ⟨s₀, rfl, s₁, h₀, name, s₂, hname, s₃, h₂, ⟨rest, rfl, rfl, rfl⟩ | ⟨-, hcompared⟩⟩
    · exact .present h₀ hname h₂
    · obtain ⟨o, s₄, ho, s₅, h₄, value, s₆, hvalue, s₇, h₆, rest, rfl, rfl, rfl⟩ := hcompared
      exact .compared h₀ hname h₂ ho h₄ hvalue h₆
  · intro h
    cases h with
    | present h₀ hname h₂ => exact ⟨_, rfl, _, h₀, _, _, hname, _, h₂, .inl ⟨_, rfl, rfl, rfl⟩⟩
    | compared h₀ hname h₂ ho h₄ hvalue h₆ =>
      exact ⟨_, rfl, _, h₀, _, _, hname, _, h₂, .inr ⟨ho.head?_ne, _, _, ho, _, h₄, _, _, hvalue, _,
        h₆, _, rfl, rfl, rfl⟩⟩

/-! ### Formulas -/

theorem bne_of_not_mem {cs : List Char} (h : c ∉ cs) : ∀ d ∈ cs, (d != c) = true := by
  intro d hd
  rw [bne_iff_ne]
  rintro rfl
  exact h hd

theorem takeWhile_ne_append {before : List Char} (h : c ∉ before) (after : List Char) :
    (before ++ c :: after).takeWhile (· != c) = before := by
  rw [List.takeWhile_append_of_pos (bne_of_not_mem h)]
  simp

theorem dropWhile_ne_append {before : List Char} (h : c ∉ before) (after : List Char) :
    (before ++ c :: after).dropWhile (· != c) = c :: after := by
  rw [List.dropWhile_append_of_pos (bne_of_not_mem h)]
  simp

theorem takeWhile_ne_eq_self {cs : List Char} (h : c ∉ cs) : cs.takeWhile (· != c) = cs := by
  have hall : (cs ++ []).takeWhile (· != c) = cs ++ [] :=
    List.takeWhile_append_of_pos (bne_of_not_mem h)
  simpa using hall

theorem dropWhile_ne_eq_nil {cs : List Char} (h : c ∉ cs) : cs.dropWhile (· != c) = [] := by
  have hall : (cs ++ []).dropWhile (· != c) = [] :=
    List.dropWhile_append_of_pos (bne_of_not_mem h)
  simpa using hall

/-- The slices before and behind the first letter `n` are there, as this letter is one byte. -/
theorem cutFormula_eq {σ ε : Type} [Place σ ε] (cs : List Char) :
    (cutFormula cs : Reader σ ε (Option (List Char × List Char))) = pure (Nth.cut? cs) := by
  rw [cutFormula, Nth.cut?]
  by_cases hn : 'n' ∈ cs
  · obtain ⟨before, after, rfl, hbefore⟩ := List.eq_append_cons_of_mem hn
    have hfrom : (sliceFrom (before ++ ['n'] ++ after) (Text.utf8Length (before ++ ['n'])) :
        Reader σ ε (List Char)) = pure after := sliceFrom_append _ _
    rw [List.append_assoc, List.singleton_append, Text.utf8Length_append] at hfrom
    rw [if_pos hn, takeWhile_ne_append hbefore, dropWhile_ne_append hbefore]
    show (sliceTo (before ++ 'n' :: after) (Text.utf8Length before) >>= fun factor =>
      sliceFrom (before ++ 'n' :: after) (Text.utf8Length before + Text.utf8Length ['n']) >>=
        fun addend => pure (some (factor, addend))) = _
    rw [sliceTo_append, hfrom, pure_bind, pure_bind]
  · rw [if_neg hn, dropWhile_ne_eq_nil hn]

theorem reads_nth_append {formula rest : List Char} {f : Nth}
    (h : (formula ++ rest).takeWhile (· != ')') = formula) :
    Reads nth (formula ++ rest) f t ↔
      Nth.ofChars? (Text.lowerAscii (formula.filter (!Text.isSpace ·))) = some f ∧ t = rest := by
  rw [nth, reads_get_bind, reads_ahead_bind, h]
  dsimp only
  rw [sliceTo_append, pure_bind, cutFormula_eq, pure_bind, ← Nth.ofChars?]
  cases Nth.ofChars? (Text.lowerAscii (formula.filter (!Text.isSpace ·))) with
  | none => simp
  | some g =>
    simp only [reads_advance_bind, reads_pure, Option.some.injEq]
    rw [eq_comm (a := f)]

/-- A formula is everything up to a closing bracket, or up to the end. -/
theorem reads_nth {f : Nth} (h : Reads nth s f t) : t = [] ∨ IsFormula s f t := by
  by_cases hclose : ')' ∈ s
  · obtain ⟨formula, rest, rfl, hopen⟩ := List.eq_append_cons_of_mem hclose
    obtain ⟨hf, rfl⟩ := (reads_nth_append (takeWhile_ne_append hopen rest)).1 h
    exact .inr (.mk hopen hf)
  · have hall : (s ++ []).takeWhile (· != ')') = s := by
      rw [List.append_nil, takeWhile_ne_eq_self hclose]
    rw [← List.append_nil s] at h
    exact .inl ((reads_nth_append hall).1 h).2

theorem IsFormula.reads_nth {f : Nth} (h : IsFormula s f t) : Reads nth s f t := by
  cases h with
  | mk hopen hf => exact (reads_nth_append (takeWhile_ne_append hopen _)).2 ⟨hf, rfl⟩

end MarkupTree.Selector
