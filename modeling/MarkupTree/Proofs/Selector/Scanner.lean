import MarkupTree.Proofs.Selector.Complete
import MarkupTree.Selector.Scanner

/-!
# Reading by bytes finds every slice

A reader at a place that is a number of bytes does what the reader of the text that is left does. So
it stands between two characters at all times, every slice that it takes is there, and its loops
come to an end.
-/

namespace MarkupTree

open Reader

variable {α β : Type} {text s t u cs : List Char} {a : α} {c : Char}

/-! ### Places -/

/-- The place that the text `s` begins at, where `s` is the end of a text. -/
def Cursor.before (text s : List Char) : Cursor :=
  ⟨text, Text.utf8Length text - Text.utf8Length s⟩

theorem dropBytes?_of_suffix (h : s <:+ text) :
    Text.dropBytes? text (Text.utf8Length text - Text.utf8Length s) = some s := by
  obtain ⟨before, rfl⟩ := h
  rw [Text.utf8Length_append, Nat.add_sub_cancel_right]
  exact Text.dropBytes?_append before s

theorem utf8Length_le_of_suffix (h : s <:+ text) : Text.utf8Length s ≤ Text.utf8Length text := by
  obtain ⟨before, rfl⟩ := h
  rw [Text.utf8Length_append]
  exact Nat.le_add_left _ _

theorem ahead_before (h : s <:+ text) : Place.ahead (Cursor.before text s) = Except.ok s := by
  show (Text.dropBytes? text (Text.utf8Length text - Text.utf8Length s)).elim
    (Except.error Stop.badSlice) Except.ok = _
  rw [dropBytes?_of_suffix h]
  rfl

theorem before_advance (h : cs ++ t <:+ text) :
    Place.advance (Cursor.before text (cs ++ t)) (Text.utf8Length cs) = Cursor.before text t := by
  have hle := utf8Length_le_of_suffix h
  rw [Text.utf8Length_append] at hle
  have hposition : Text.utf8Length text - Text.utf8Length (cs ++ t) + Text.utf8Length cs =
      Text.utf8Length text - Text.utf8Length t := by
    rw [Text.utf8Length_append]
    omega
  exact congrArg (Cursor.mk text) hposition

/-- A complaint is about the same place and shows the same fragment. -/
theorem complain_before (h : s <:+ text) (complaint : Complaint) :
    Place.complain (Cursor.before text s) complaint =
      Stop.refused ((Fault.mk complaint s).toError text) := by
  have hfragment : Text.takeBytes? s (Cursor.fragmentLength s) =
      some (s.take 1 ++ (s.drop 1).takeWhile (!Text.isSpace ·)) := by
    cases s with
    | nil => rfl
    | cons c s =>
      have htake := Text.takeBytes?_append (c :: s.takeWhile (!Text.isSpace ·))
        (s.dropWhile (!Text.isSpace ·))
      rw [List.cons_append, List.takeWhile_append_dropWhile] at htake
      exact htake
  have herror : (Cursor.before text s).error? complaint = 
      some ((Fault.mk complaint s).toError text) := by
    rw [Cursor.error?]
    show (Text.dropBytes? text (Text.utf8Length text - Text.utf8Length s) >>= _) = _
    rw [dropBytes?_of_suffix h, Option.bind_eq_bind, Option.bind_some, hfragment]
    cases s <;> rfl
  show ((Cursor.before text s).error? complaint).elim Stop.badSlice Stop.refused = _
  rw [herror]
  rfl

theorem utf8Length_eq_zero_iff : Text.utf8Length s = 0 ↔ s = [] := by
  cases s with
  | nil => simp
  | cons c s =>
    have hpos := c.utf8Size_pos
    simp
    omega

theorem atEnd_before (h : s <:+ text) : Place.atEnd (Cursor.before text s) = s.isEmpty := by
  have hle := utf8Length_le_of_suffix h
  rw [Bool.eq_iff_iff, List.isEmpty_iff, ← utf8Length_eq_zero_iff]
  show decide (Text.utf8Length text ≤ Text.utf8Length text - Text.utf8Length s) = true ↔ _
  rw [decide_eq_true_eq]
  omega

/-! ### Agreement -/

/-- Both outcomes are the same value before the same text, or the same error. -/
inductive SameOutcome (text s : List Char) :
    Except Fault (α × List Char) → Except Stop (α × Cursor) → Prop
  | ok {a : α} {t : List Char} (h : t <:+ s) :
    SameOutcome text s (.ok (a, t)) (.ok (a, .before text t))
  | error {f : Fault} (h : f.rest <:+ text) :
    SameOutcome text s (.error f) (.error (.refused (f.toError text)))

/-- The readers do the same before the text `s`. -/
def Agree (text s : List Char) (x : OfText α) (y : Reader Cursor Stop α) : Prop :=
  SameOutcome text s (x.run s) (y.run (.before text s))

variable {x : OfText α} {y : Reader Cursor Stop α}

theorem agree_pure (a : α) : Agree text s (pure a) (pure a) := .ok List.suffix_rfl

theorem Agree.bind {f : α → OfText β} {g : α → Reader Cursor Stop β} (h : Agree text s x y)
    (hf : ∀ a t, Reads x s a t → t <:+ s → Agree text t (f a) (g a)) :
    Agree text s (x >>= f) (y >>= g) := by
  unfold Agree at *
  rw [StateT.run_bind, StateT.run_bind]
  unfold Reads at hf
  generalize x.run s = left at h hf
  generalize y.run (.before text s) = right at h
  cases h with
  | error h => exact .error h
  | @ok a t ht =>
    have hrest := hf a t rfl ht
    show SameOutcome text s ((f a).run t) ((g a).run (.before text t))
    generalize (f a).run t = left at hrest
    generalize (g a).run (.before text t) = right at hrest
    cases hrest with
    | error h => exact .error h
    | ok h => exact .ok (h.trans ht)

theorem agree_get_bind {f : List Char → OfText β} {g : Cursor → Reader Cursor Stop β}
    (h : Agree text s (f s) (g (.before text s))) : Agree text s (get >>= f) (get >>= g) := h

theorem agree_failAt (hu : u <:+ text) (complaint : Complaint) :
    Agree text s (failAt u complaint : OfText α) (failAt (Cursor.before text u) complaint) := by
  show SameOutcome text s (.error ⟨complaint, u⟩)
    (.error (Place.complain (Cursor.before text u) complaint))
  rw [complain_before hu]
  exact .error hu

section

variable (hs : s <:+ text)
include hs

theorem agree_fail (complaint : Complaint) :
    Agree text s (fail complaint : OfText α) (fail complaint) := agree_failAt hs complaint

theorem agree_ahead_bind {f : List Char → OfText β} {g : List Char → Reader Cursor Stop β}
    (h : Agree text s (f s) (g s)) : Agree text s (ahead >>= f) (ahead >>= g) := by
  have hahead : (ahead : Reader Cursor Stop (List Char)).run (.before text s) =
      .ok (s, .before text s) := by
    show (Place.ahead (Cursor.before text s) >>= fun a => pure (a, Cursor.before text s)) = _
    rw [ahead_before hs]
    rfl
  have hbind : (ahead >>= g).run (.before text s) = (g s).run (.before text s) := by
    rw [StateT.run_bind, hahead]
    rfl
  unfold Agree
  rw [hbind]
  exact h

theorem agree_atEnd_bind {f : Bool → OfText β} {g : Bool → Reader Cursor Stop β}
    (h : Agree text s (f s.isEmpty) (g s.isEmpty)) :
    Agree text s (atEnd >>= f) (atEnd >>= g) := by
  show SameOutcome text s ((f s.isEmpty).run s)
    ((g (Place.atEnd (Cursor.before text s))).run (.before text s))
  rw [atEnd_before hs]
  exact h

theorem agree_peek_bind {f : Option Char → OfText β} {g : Option Char → Reader Cursor Stop β}
    (h : Agree text s (f s.head?) (g s.head?)) : Agree text s (peek >>= f) (peek >>= g) := by
  unfold peek
  simp only [bind_assoc, pure_bind]
  exact agree_ahead_bind hs h

end

theorem agree_advance (cs : List Char) (h : cs ++ t <:+ text) : Agree text (cs ++ t)
    (advance (Text.utf8Length cs)) (advance (Text.utf8Length cs)) := by
  show SameOutcome text _ (.ok ((), (Text.dropBytes? (cs ++ t) (Text.utf8Length cs)).getD []))
    (.ok ((), Place.advance (Cursor.before text (cs ++ t)) (Text.utf8Length cs)))
  rw [before_advance h, Text.dropBytes?_append]
  exact .ok (List.suffix_append cs t)

/-! ### Words -/

section

variable (hs : s <:+ text)
include hs

theorem agree_bump : Agree text s bump bump := by
  unfold bump
  refine agree_peek_bind hs ?_
  cases s with
  | nil => exact agree_pure none
  | cons c s =>
    have hadvance := agree_advance [c] hs
    rw [Text.utf8Length_cons, Text.utf8Length_nil, Nat.add_zero] at hadvance
    exact hadvance.bind fun _ _ _ _ => agree_pure (some c)

theorem agree_eat (c : Char) : Agree text s (eat c) (eat c) := by
  unfold eat
  refine agree_peek_bind hs ?_
  split
  · next hc =>
    obtain ⟨t, rfl⟩ := List.head?_eq_some_iff.1 hc
    have hadvance := agree_advance [c] hs
    rw [Text.utf8Length_cons, Text.utf8Length_nil, Nat.add_zero] at hadvance
    exact hadvance.bind fun _ _ _ _ => agree_pure true
  · exact agree_pure false

theorem agree_expect (c : Char) : Agree text s (expect c) (expect c) := by
  unfold expect
  refine (agree_eat hs c).bind fun b t _ ht => ?_
  cases b with
  | true => exact agree_pure ()
  | false => exact agree_fail (ht.trans hs) _

end

/-- A loop comes to an end before its budget is used up, as each step takes something off the
text. -/
theorem agree_collect {x : OfText (Option α)} {y : Reader Cursor Stop (Option α)}
    (hshort : Shortens x) (budget : List Char) (hbudget : s.length ≤ budget.length)
    (h : ∀ t, t <:+ s → Agree text t x y) : Agree text s (collect x budget) (collect y budget) := by
  induction budget generalizing s with
  | nil =>
    refine (h s List.suffix_rfl).bind fun a? t ha _ => ?_
    cases a? with
    | some a =>
      have hlt := hshort s a t ha
      exact absurd (Nat.lt_of_lt_of_le hlt hbudget) (Nat.not_lt_zero _)
    | none => exact agree_pure []
  | cons _ budget ih =>
    refine (h s List.suffix_rfl).bind fun a? t ha ht => ?_
    cases a? with
    | some a =>
      have hlt := hshort s a t ha
      have hbudget' := Nat.le_of_lt_succ (Nat.lt_of_lt_of_le hlt hbudget)
      refine (ih hbudget' fun u hu => h u (hu.trans ht)).bind fun as u _ _ => ?_
      exact agree_pure (a :: as)
    | none => exact agree_pure []

theorem agree_many {x : OfText (Option α)} {y : Reader Cursor Stop (Option α)}
    (hshort : Shortens x) (hs : s <:+ text) (h : ∀ t, t <:+ s → Agree text t x y) :
    Agree text s (many x) (many y) :=
  agree_ahead_bind hs (agree_collect hshort s (Nat.le_refl _) h)

namespace Selector

theorem agree_spaceStep (hs : s <:+ text) : Agree text s spaceStep spaceStep := by
  unfold spaceStep
  refine agree_peek_bind hs ?_
  split
  · split
    · exact agree_bump hs
    · exact agree_pure none
  · exact agree_pure none

theorem agree_skipSpace (hs : s <:+ text) : Agree text s skipSpace skipSpace := by
  unfold skipSpace
  refine (agree_many shortens_spaceStep hs fun t ht => agree_spaceStep (ht.trans hs)).bind
    fun run t _ _ => ?_
  exact agree_pure _

theorem agree_escape (hs : s <:+ text) : Agree text s escape escape := by
  unfold escape
  refine agree_get_bind (agree_ahead_bind hs ?_)
  obtain ⟨digits, after, rfl, hdigits, hhex⟩ := escapeDigits_spec s
  rw [hdigits]
  split
  · refine (agree_bump hs).bind fun c? t _ ht => ?_
    cases c? with
    | some c => exact agree_pure c
    | none => exact agree_failAt hs _
  · rw [← utf8Length_hexDigits hhex, sliceTo_append, sliceTo_append, pure_bind, pure_bind]
    split
    · exact agree_failAt hs _
    · next c _ =>
      refine (agree_advance digits hs).bind fun _ t _ ht => ?_
      refine (agree_eat (ht.trans hs) ' ').bind fun _ _ _ _ => agree_pure c

theorem agree_nameStep (hs : s <:+ text) : Agree text s nameStep nameStep := by
  unfold nameStep
  refine agree_peek_bind hs ?_
  split
  · next c _ =>
    split
    · refine (agree_bump hs).bind fun _ t _ ht => ?_
      refine (agree_escape (ht.trans hs)).bind fun c _ _ _ => agree_pure (some c)
    · split
      · exact agree_bump hs
      · exact agree_pure none
  · exact agree_pure none

theorem agree_name (hs : s <:+ text) : Agree text s name name := by
  unfold name
  refine agree_get_bind ?_
  refine (agree_many shortens_nameStep hs fun t ht => agree_nameStep (ht.trans hs)).bind
    fun cs t _ ht => ?_
  cases cs with
  | nil => exact agree_failAt hs _
  | cons => exact agree_pure _

theorem agree_identifier (hs : s <:+ text) : Agree text s identifier identifier := by
  unfold identifier
  refine agree_peek_bind hs ?_
  split
  · exact agree_name hs
  · exact agree_fail hs _

theorem agree_stringStep {start : List Char} (hstart : start <:+ text) (q : Char)
    (hs : s <:+ text) :
    Agree text s (stringStep start q) (stringStep (Cursor.before text start) q) := by
  unfold stringStep
  refine (agree_bump hs).bind fun c? t _ ht => ?_
  cases c? with
  | none => exact agree_failAt hstart _
  | some c =>
    simp only
    split
    · exact agree_pure none
    · split
      · refine (agree_bump (ht.trans hs)).bind fun d? _ _ _ => ?_
        cases d? with
        | none => exact agree_failAt hstart _
        | some d => exact agree_pure (some d)
      · exact agree_pure (some c)

theorem agree_stringOr {other : OfText String} {other' : Reader Cursor Stop String}
    (h : Agree text s other other') (hs : s <:+ text) :
    Agree text s (stringOr other) (stringOr other') := by
  unfold stringOr
  refine agree_get_bind (agree_peek_bind hs ?_)
  split
  · next q _ =>
    split
    · refine (agree_bump hs).bind fun _ t _ ht => ?_
      refine (agree_many (shortens_stringStep s q) (ht.trans hs) fun u hu =>
        agree_stringStep hs q (hu.trans (ht.trans hs))).bind fun cs _ _ _ => agree_pure _
    · exact h
  · exact h

/-! ### Attributes and formulas -/

theorem agree_operator (hs : s <:+ text) : Agree text s operator operator := by
  unfold operator
  refine agree_get_bind ((agree_bump hs).bind fun c? t _ ht => ?_)
  refine agree_peek_bind (ht.trans hs) ?_
  split
  · exact agree_pure _
  · split
    · next o _ => exact (agree_bump (ht.trans hs)).bind fun _ _ _ _ => agree_pure o
    · exact agree_failAt hs _
  · exact agree_failAt hs _

theorem agree_attributeTest (hs : s <:+ text) :
    Agree text s attributeTest attributeTest := by
  unfold attributeTest
  refine (agree_expect hs '[').bind fun _ t₀ _ ht => ?_
  have hs₀ := ht.trans hs
  refine (agree_skipSpace hs₀).bind fun _ t₁ _ ht => ?_
  have hs₁ := ht.trans hs₀
  refine (agree_identifier hs₁).bind fun named t₂ _ ht => ?_
  have hs₂ := ht.trans hs₁
  refine (agree_skipSpace hs₂).bind fun _ t₃ _ ht => ?_
  have hs₃ := ht.trans hs₂
  refine (agree_eat hs₃ ']').bind fun b t₄ _ ht => ?_
  have hs₄ := ht.trans hs₃
  cases b with
  | true => exact agree_pure _
  | false =>
    refine (agree_operator hs₄).bind fun o t₅ _ ht => ?_
    have hs₅ := ht.trans hs₄
    refine (agree_skipSpace hs₅).bind fun _ t₆ _ ht => ?_
    have hs₆ := ht.trans hs₅
    refine (agree_stringOr (agree_name hs₆) hs₆).bind fun value t₇ _ ht => ?_
    have hs₇ := ht.trans hs₆
    refine (agree_skipSpace hs₇).bind fun _ t₈ _ ht => ?_
    exact (agree_expect (ht.trans hs₇) ']').bind fun _ _ _ _ => agree_pure _

theorem agree_nth (hs : s <:+ text) : Agree text s nth nth := by
  unfold nth
  refine agree_get_bind (agree_ahead_bind hs ?_)
  obtain ⟨formula, rest, rfl, hformula⟩ :
      ∃ formula rest, s = formula ++ rest ∧ s.takeWhile (· != ')') = formula :=
    ⟨_, _, List.takeWhile_append_dropWhile.symm, rfl⟩
  rw [hformula]
  dsimp only
  rw [sliceTo_append, sliceTo_append, pure_bind, pure_bind, cutFormula_eq, cutFormula_eq,
    pure_bind, pure_bind]
  split
  · next f _ => exact (agree_advance formula hs).bind fun _ _ _ _ => agree_pure f
  · exact agree_failAt hs _

/-! ### Selectors -/

/-- The readers of the argument of `:not` do the same wherever one can stand in the text `s`: a
colon and a name come before it. -/
def InnerAgree (text s : List Char) (inner : OfText (List Chain))
    (inner' : Reader Cursor Stop (List Chain)) : Prop :=
  ∀ u, u <:+ s → u.length + 2 ≤ s.length → Agree text u inner inner'

variable {inner : OfText (List Chain)} {inner' : Reader Cursor Stop (List Chain)}

theorem InnerAgree.mono (h : InnerAgree text s inner inner') (ht : t <:+ s) :
    InnerAgree text t inner inner' := fun u hu hlen =>
  h u (hu.trans ht) (Nat.le_trans hlen ht.length_le)

theorem agree_argument {x : OfText Simple} {y : Reader Cursor Stop Simple}
    (h : Agree text s x y) (hs : s <:+ text) :
    Agree text s (do
        let simple ← x
        let _ ← skipSpace
        expect ')'
        return simple)
      (do
        let simple ← y
        let _ ← skipSpace
        expect ')'
        return simple) := by
  refine h.bind fun simple t _ ht => ?_
  have hs₀ := ht.trans hs
  refine (agree_skipSpace hs₀).bind fun _ u _ hu => ?_
  exact (agree_expect (hu.trans hs₀) ')').bind fun _ _ _ _ => agree_pure simple

theorem isSome_pseudoClassWith? {σ ε : Type} [Place σ ε] (inner : Reader σ ε (List Chain))
    (name : String) : (pseudoClassWith? inner name).isSome =
      ((countingPseudoClass? name).isSome || name = "not" || name = "contains") := by
  unfold pseudoClassWith?
  cases countingPseudoClass? name with
  | some counts => rfl
  | none =>
    by_cases hnot : name = "not"
    · simp [hnot]
    · by_cases hcontains : name = "contains"
      · simp [hcontains]
      · simp [hnot, hcontains]

theorem agree_pseudoClassNamed {start : List Char} (hstart : start <:+ text) (name : String)
    (hs : s <:+ text) (hinner : ∀ u, u <:+ s → Agree text u inner inner') :
    Agree text s (pseudoClassNamed inner start name)
      (pseudoClassNamed inner' (Cursor.before text start) name) := by
  unfold pseudoClassNamed
  refine (agree_eat hs '(').bind fun b t _ ht => ?_
  have hs₀ := ht.trans hs
  cases b with
  | true =>
    refine (agree_skipSpace hs₀).bind fun _ u _ hu => ?_
    have hs₁ := hu.trans hs₀
    unfold pseudoClassWith?
    cases countingPseudoClass? name with
    | some counts =>
      exact agree_argument ((agree_nth hs₁).bind fun f _ _ _ => agree_pure (counts f)) hs₁
    | none =>
      by_cases hnot : name = "not"
      · simp only [hnot, if_true]
        refine agree_argument ((hinner u (hu.trans ht)).bind fun L _ _ _ => ?_) hs₁
        exact agree_pure (Simple.not L)
      · by_cases hcontains : name = "contains"
        · simp only [hcontains, if_true]
          refine agree_argument ((agree_stringOr (agree_identifier hs₁) hs₁).bind
            fun value _ _ _ => ?_) hs₁
          exact agree_pure (Simple.contains value)
        · simp only [hnot, hcontains, if_false]
          exact agree_failAt hstart _
  | false =>
    simp only [Bool.false_eq_true, if_false]
    split
    · next x _ => exact agree_pure x
    · rw [isSome_pseudoClassWith? inner, isSome_pseudoClassWith? inner']
      split
      · exact agree_failAt hstart _
      · exact agree_failAt hstart _

theorem agree_pseudoClass (hs : s <:+ text) (hinner : InnerAgree text s inner inner') :
    Agree text s (pseudoClass inner) (pseudoClass inner') := by
  unfold pseudoClass
  refine agree_get_bind ((agree_expect hs ':').bind fun _ t hcolon ht => ?_)
  have hs₀ := ht.trans hs
  refine agree_peek_bind hs₀ ?_
  split
  · exact agree_failAt hs _
  · refine (agree_identifier hs₀).bind fun n u hn hu => ?_
    refine agree_pseudoClassNamed hs _ (hu.trans hs₀) fun v hv => ?_
    refine hinner v ((hv.trans hu).trans ht) ?_
    have hlt := (reads_identifier.1 hn).length_lt
    have hle := hv.length_le
    rw [reads_expect.1 hcolon, List.length_cons]
    omega

theorem agree_simpleStep (hs : s <:+ text) (hinner : InnerAgree text s inner inner') :
    Agree text s (simpleStep inner) (simpleStep inner') := by
  unfold simpleStep
  refine agree_peek_bind hs ?_
  split
  · refine (agree_bump hs).bind fun _ t _ ht => ?_
    exact (agree_identifier (ht.trans hs)).bind fun n _ _ _ => agree_pure _
  · refine (agree_bump hs).bind fun _ t _ ht => ?_
    exact (agree_name (ht.trans hs)).bind fun n _ _ _ => agree_pure _
  · exact (agree_attributeTest hs).bind fun test _ _ _ => agree_pure _
  · exact (agree_pseudoClass hs hinner).bind fun x _ _ _ => agree_pure _
  · exact agree_pure none

theorem agree_tagName (hs : s <:+ text) : Agree text s tagName tagName := by
  unfold tagName
  refine agree_peek_bind hs ?_
  split
  · exact (agree_identifier hs).bind fun n _ _ _ => agree_pure _
  · exact agree_pure none

theorem agree_combinator? (hs : s <:+ text) : Agree text s combinator? combinator? := by
  unfold combinator?
  refine agree_peek_bind hs ?_
  split
  · refine (agree_bump hs).bind fun _ t _ ht => ?_
    exact (agree_skipSpace (ht.trans hs)).bind fun _ _ _ _ => agree_pure _
  · exact agree_pure none

section

variable (hsound : Sound inner)
include hsound

theorem agree_simples (relation : Combinator) (star : Bool) (tag? : Option String)
    (hs : s <:+ text) (hinner : InnerAgree text s inner inner') :
    Agree text s (do
        let simples ← many (simpleStep inner)
        if !star && tag?.isNone && simples.isEmpty then fail .unexpectedInside
        else return (⟨relation, tag?, simples⟩ : Part))
      (do
        let simples ← many (simpleStep inner')
        if !star && tag?.isNone && simples.isEmpty then fail .unexpectedInside
        else return ⟨relation, tag?, simples⟩) := by
  refine (agree_many (shortens_simpleStep hsound) hs fun t ht =>
    agree_simpleStep (ht.trans hs) (hinner.mono ht)).bind fun simples t _ ht => ?_
  split
  · exact agree_fail (ht.trans hs) _
  · exact agree_pure _

theorem agree_part (relation : Combinator) (hs : s <:+ text)
    (hinner : InnerAgree text s inner inner') :
    Agree text s (part inner relation) (part inner' relation) := by
  unfold part
  refine (agree_eat hs '*').bind fun star t _ ht => ?_
  have hs₀ := ht.trans hs
  have hinner₀ := hinner.mono ht
  cases star with
  | true => exact agree_simples hsound relation true none hs₀ hinner₀
  | false =>
    refine (agree_tagName hs₀).bind fun tag? u _ hu => ?_
    exact agree_simples hsound relation false tag? (hu.trans hs₀) (hinner₀.mono hu)

theorem agree_requiredPart (relation : Combinator) (hs : s <:+ text)
    (hinner : InnerAgree text s inner inner') :
    Agree text s (requiredPart inner relation) (requiredPart inner' relation) := by
  unfold requiredPart
  refine agree_peek_bind hs ?_
  split
  · exact agree_fail hs _
  · exact agree_part hsound relation hs hinner

theorem agree_partStep (hs : s <:+ text) (hinner : InnerAgree text s inner inner') :
    Agree text s (partStep inner) (partStep inner') := by
  unfold partStep
  refine (agree_skipSpace hs).bind fun spaced t _ ht => ?_
  have hs₀ := ht.trans hs
  refine agree_peek_bind hs₀ ?_
  split
  · exact agree_pure none
  · refine (agree_combinator? hs₀).bind fun relation? u _ hu => ?_
    have hs₁ := hu.trans hs₀
    have hinner₁ := (hinner.mono ht).mono hu
    cases relation? with
    | some relation =>
      exact (agree_requiredPart hsound relation hs₁ hinner₁).bind
        fun p _ _ _ => agree_pure (some p)
    | none =>
      simp only
      split
      · exact (agree_requiredPart hsound .descendant hs₁ hinner₁).bind
          fun p _ _ _ => agree_pure (some p)
      · exact agree_fail hs₁ _

theorem agree_chain (hs : s <:+ text) (hinner : InnerAgree text s inner inner') :
    Agree text s (chain inner) (chain inner') := by
  unfold chain
  refine (agree_skipSpace hs).bind fun _ t _ ht => ?_
  have hs₀ := ht.trans hs
  refine (agree_combinator? hs₀).bind fun relation? u _ hu => ?_
  have hs₁ := hu.trans hs₀
  have hinner₁ := (hinner.mono ht).mono hu
  refine (agree_requiredPart hsound _ hs₁ hinner₁).bind fun first v _ hv => ?_
  have hs₂ := hv.trans hs₁
  refine (agree_many (shortens_partStep hsound) hs₂ fun w hw =>
    agree_partStep hsound (hw.trans hs₂) ((hinner₁.mono hv).mono hw)).bind fun parts _ _ _ => ?_
  exact agree_pure (first :: parts)

theorem agree_chainStep (hs : s <:+ text) (hinner : InnerAgree text s inner inner') :
    Agree text s (chainStep inner) (chainStep inner') := by
  unfold chainStep
  refine (agree_eat hs ',').bind fun b t _ ht => ?_
  have hs₀ := ht.trans hs
  cases b with
  | true =>
    refine (agree_skipSpace hs₀).bind fun _ u _ hu => ?_
    exact (agree_chain hsound (hu.trans hs₀) ((hinner.mono ht).mono hu)).bind
      fun c _ _ _ => agree_pure (some c)
  | false => exact agree_pure none

end

theorem agree_chains_succ (depth : Nat) (hs : s <:+ text)
    (hinner : InnerAgree text s (chains depth) (chains depth)) :
    Agree text s (chains (depth + 1)) (chains (depth + 1)) := by
  have hsound : Sound (chains depth) := isList_of_reads_chains depth
  unfold chains
  refine (agree_chain hsound hs hinner).bind fun first t _ ht => ?_
  have hs₀ := ht.trans hs
  refine (agree_many (shortens_chainStep hsound) hs₀ fun u hu =>
    agree_chainStep hsound (hu.trans hs₀) ((hinner.mono ht).mono hu)).bind fun rest _ _ _ => ?_
  exact agree_pure (first :: rest)

/-- The readers nest as deep as there are characters. -/
theorem agree_chains (depth : Nat) (hs : s <:+ text) (hlen : s.length ≤ depth + 1) :
    Agree text s (chains (depth + 1)) (chains (depth + 1)) := by
  induction depth generalizing s with
  | zero =>
    refine agree_chains_succ 0 hs fun u _ hu => ?_
    omega
  | succ depth ih =>
    refine agree_chains_succ (depth + 1) hs fun u hsuffix hu => ?_
    exact ih (hsuffix.trans hs) (by omega)

theorem agree_whole (text : List Char) : Agree text text whole whole := by
  unfold whole
  refine (agree_skipSpace List.suffix_rfl).bind fun _ t _ ht => ?_
  refine agree_atEnd_bind ht ?_
  split
  · exact agree_pure _
  · next hsome =>
    refine agree_ahead_bind ht ?_
    obtain ⟨depth, hdepth⟩ : ∃ depth, t.length = depth + 1 := by
      cases t with
      | nil => exact absurd rfl hsome
      | cons c t => exact ⟨t.length, rfl⟩
    rw [hdepth]
    refine (agree_chains depth ht (Nat.le_of_eq hdepth)).bind fun read u _ hu => ?_
    refine agree_atEnd_bind (hu.trans ht) ?_
    split
    · exact agree_pure read
    · exact agree_fail (hu.trans ht) _

/-- Reading by bytes has the outcome of reading the text that is left. No slice is missing and no
loop goes on. -/
theorem scan_eq (source : String) : scan source = (parse source).mapError .refused := by
  have hstart : Cursor.before source.toList source.toList = ⟨source.toList, 0⟩ :=
    congrArg (Cursor.mk _) (Nat.sub_self _)
  have h := agree_whole source.toList
  unfold Agree at h
  rw [hstart] at h
  unfold scan parse readChars
  generalize whole.run source.toList = left at h ⊢
  generalize whole.run (⟨source.toList, 0⟩ : Cursor) = right at h ⊢
  cases h with
  | ok => rfl
  | error => rfl

end Selector

end MarkupTree
