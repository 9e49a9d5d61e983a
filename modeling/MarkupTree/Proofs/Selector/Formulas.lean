import Mathlib.Data.List.Basic
import MarkupTree.Proofs.Selector.Enclosed

/-!
# Formulas

How a formula `an+b` is written: `odd`, `even`, a number, or a factor, the letter `n` and an addend,
with white space around the sign of the addend and nowhere else. A formula is read after all white
space in it is left out, so the texts that are read are those that are so written without white
space.
-/

namespace MarkupTree

namespace Nth

variable {cs ds text : List Char} {w : Int32} {f : Nth}

/-- Digits, at least one, and what they are worth. -/
structure IsDigits (ds : List Char) (n : Nat) : Prop where
  some : ds ≠ []
  all : ∀ c ∈ ds, c.isDigit = true
  value : Text.decimalValue ds = n

/-- Digits with a sign or without one. -/
inductive IsNumber : List Char → Int → Prop
  | digits {ds : List Char} {n : Nat} (h : IsDigits ds n) : IsNumber ds n
  | plus {ds : List Char} {n : Nat} (h : IsDigits ds n) : IsNumber ('+' :: ds) n
  | minus {ds : List Char} {n : Nat} (h : IsDigits ds n) : IsNumber ('-' :: ds) (-n)

/-- What stands before the letter `n`: a number, or without digits one, with the sign that is
there. -/
inductive IsFactor : List Char → Int → Prop
  | number {cs : List Char} {a : Int} (h : IsNumber cs a) : IsFactor cs a
  | one : IsFactor [] 1
  | plus : IsFactor ['+'] 1
  | minus : IsFactor ['-'] (-1)

def IsBlank (gap : List Char) : Prop := ∀ c ∈ gap, Text.isSpace c = true

def SpaceFree (cs : List Char) : Prop := ∀ c ∈ cs, ¬ Text.isSpace c = true

/-- What stands behind the letter `n`: nothing, or a sign between white space and then digits. -/
inductive IsAddend : List Char → Int → Prop
  | none : IsAddend [] 0
  | plus {before after ds : List Char} {n : Nat} (hbefore : IsBlank before) (hafter : IsBlank after)
      (h : IsDigits ds n) : IsAddend (before ++ '+' :: (after ++ ds)) n
  | minus {before after ds : List Char} {n : Nat} (hbefore : IsBlank before)
      (hafter : IsBlank after) (h : IsDigits ds n) : IsAddend (before ++ '-' :: (after ++ ds)) (-n)

/-- A formula in lower case and without white space at its ends. -/
inductive IsWritten : List Char → Nth → Prop
  | odd : IsWritten ['o', 'd', 'd'] ⟨2, 1⟩
  | even : IsWritten ['e', 'v', 'e', 'n'] ⟨2, 0⟩
  | place {cs : List Char} {b : Int32} (h : IsNumber cs b.toInt) : IsWritten cs ⟨0, b⟩
  | places {factor addend : List Char} {a b : Int32} (ha : IsFactor factor a.toInt)
      (hb : IsAddend addend b.toInt) : IsWritten (factor ++ 'n' :: addend) ⟨a, b⟩

/-- There is no white space but around a sign behind a letter `n`. -/
inductive SpacedAtSign : List Char → Prop
  | free {cs : List Char} (h : SpaceFree cs) : SpacedAtSign cs
  | around {head before after tail : List Char} {sign : Char} (hhead : SpaceFree head)
      (hbefore : IsBlank before) (hsign : sign = '+' ∨ sign = '-') (hafter : IsBlank after)
      (htail : SpaceFree tail) :
      SpacedAtSign (head ++ 'n' :: (before ++ sign :: (after ++ tail)))

/-! ### What is read -/

theorem unsigned?_eq_some {n : Nat} : unsigned? cs = some n ↔ IsDigits cs n := by
  simp only [unsigned?, Bool.and_eq_true, Bool.not_eq_true', List.isEmpty_eq_false_iff,
    List.all_eq_true, Option.ite_none_right_eq_some, Option.some.injEq]
  constructor
  · rintro ⟨⟨hsome, hall⟩, hvalue⟩
    exact ⟨hsome, hall, hvalue⟩
  · rintro ⟨hsome, hall, hvalue⟩
    exact ⟨⟨hsome, hall⟩, hvalue⟩

theorem word?_eq_some {n : Int} : word? n = some w ↔ w.toInt = n := by
  constructor
  · intro h
    unfold word? at h
    split at h
    · cases h
      rw [Int32.toInt_ofInt_of_le] <;> omega
    · cases h
  · rintro rfl
    exact Selector.word?_toInt w

theorem IsDigits.not_sign {n : Nat} (h : IsDigits ds n) :
    ∀ c ∈ ds.head?, c ≠ '+' ∧ c ≠ '-' := by
  intro c hc
  have hdigit := h.all c (List.mem_of_mem_head? hc)
  constructor
  · rintro rfl
    cases hdigit
  · rintro rfl
    cases hdigit

theorem signed?_eq_some : signed? cs = some w ↔ IsNumber cs w.toInt := by
  have hbind : ∀ (ds : List Char) (g : Nat → Int),
      (do word? (g (← unsigned? ds))) = some w ↔ ∃ n, IsDigits ds n ∧ w.toInt = g n := by
    intro ds g
    simp only [Option.bind_eq_bind, Option.bind_eq_some_iff, unsigned?_eq_some, word?_eq_some]
  constructor
  · intro h
    unfold signed? at h
    split at h
    · obtain ⟨n, hn, hw⟩ := (hbind _ _).1 h
      exact hw ▸ .plus hn
    · obtain ⟨n, hn, hw⟩ := (hbind _ fun n => -n).1 h
      exact hw ▸ .minus hn
    · obtain ⟨n, hn, hw⟩ := (hbind _ _).1 h
      exact hw ▸ .digits hn
  · intro h
    generalize hv : w.toInt = v at h
    cases h with
    | digits hn =>
      have hsign := hn.not_sign
      unfold signed?
      split
      · exact absurd rfl (hsign '+' rfl).1
      · exact absurd rfl (hsign '-' rfl).2
      · exact (hbind _ _).2 ⟨_, hn, hv⟩
    | plus hn => exact (hbind _ _).2 ⟨_, hn, hv⟩
    | minus hn => exact (hbind _ fun n => -n).2 ⟨_, hn, hv⟩

theorem IsNumber.ne_nil {n : Int} (h : IsNumber cs n) : cs ≠ [] := by
  cases h with
  | digits h => exact h.some
  | plus => exact List.cons_ne_nil _ _
  | minus => exact List.cons_ne_nil _ _

/-- A sign is no number. -/
theorem not_isNumber_sign {c : Char} (hc : c.isDigit = false) {n : Int} : ¬ IsNumber [c] n := by
  intro h
  cases h with
  | digits h => exact Bool.eq_false_iff.1 hc (h.all c List.mem_cons_self)
  | plus h => exact h.some rfl
  | minus h => exact h.some rfl

theorem factor?_eq_some : factor? cs = some w ↔ IsFactor cs w.toInt := by
  constructor
  · intro h
    unfold factor? at h
    split at h
    · cases h
      exact .one
    · cases h
      exact .plus
    · cases h
      exact .minus
    · exact .number (signed?_eq_some.1 h)
  · intro h
    have hone : w.toInt = 1 → some 1 = some w := fun hw => congrArg some (Int32.toInt_inj.1 hw.symm)
    generalize hv : w.toInt = v at h
    cases h with
    | number h =>
      unfold factor?
      split
      · exact absurd rfl h.ne_nil
      · exact absurd h (not_isNumber_sign rfl)
      · exact absurd h (not_isNumber_sign rfl)
      · exact signed?_eq_some.2 (hv ▸ h)
    | one => exact hone hv
    | plus => exact hone hv
    | minus => exact congrArg some (Int32.toInt_inj.1 hv.symm)

theorem IsBlank.eq_nil (h : IsBlank cs) (hfree : SpaceFree cs) : cs = [] := by
  cases cs with
  | nil => rfl
  | cons c cs => exact absurd (h c List.mem_cons_self) (hfree c List.mem_cons_self)

theorem isBlank_nil : IsBlank [] := nofun

theorem SpaceFree.left {ds : List Char} (h : SpaceFree (cs ++ ds)) : SpaceFree cs :=
  fun c hc => h c (List.mem_append_left ds hc)

theorem SpaceFree.right {ds : List Char} (h : SpaceFree (cs ++ ds)) : SpaceFree ds :=
  fun c hc => h c (List.mem_append_right cs hc)

theorem SpaceFree.tail {c : Char} (h : SpaceFree (c :: cs)) : SpaceFree cs :=
  fun d hd => h d (List.mem_cons_of_mem c hd)

theorem isNumber_plus {v : Int} :
    IsNumber ('+' :: ds) v ↔ ∃ n : Nat, IsDigits ds n ∧ v = n := by
  constructor
  · intro h
    cases h with
    | digits h => exact absurd rfl (h.not_sign '+' rfl).1
    | plus h => exact ⟨_, h, rfl⟩
  · rintro ⟨n, h, rfl⟩
    exact .plus h

theorem isNumber_minus {v : Int} :
    IsNumber ('-' :: ds) v ↔ ∃ n : Nat, IsDigits ds n ∧ v = -n := by
  constructor
  · intro h
    cases h with
    | digits h => exact absurd rfl (h.not_sign '-' rfl).2
    | minus h => exact ⟨_, h, rfl⟩
  · rintro ⟨n, h, rfl⟩
    exact .minus h

/-- Without white space an addend is nothing or a number with its sign. -/
theorem isAddend_iff (hfree : SpaceFree cs) {v : Int} : IsAddend cs v ↔
    (cs = [] ∧ v = 0) ∨ ∃ ds, (cs = '+' :: ds ∨ cs = '-' :: ds) ∧ IsNumber cs v := by
  constructor
  · intro h
    cases h with
    | none => exact .inl ⟨rfl, rfl⟩
    | plus hbefore hafter h =>
      obtain rfl := hbefore.eq_nil hfree.left
      obtain rfl := hafter.eq_nil hfree.tail.left
      exact .inr ⟨_, .inl rfl, .plus h⟩
    | minus hbefore hafter h =>
      obtain rfl := hbefore.eq_nil hfree.left
      obtain rfl := hafter.eq_nil hfree.tail.left
      exact .inr ⟨_, .inr rfl, .minus h⟩
  · rintro (⟨rfl, rfl⟩ | ⟨ds, rfl | rfl, h⟩)
    · exact .none
    · obtain ⟨n, hn, rfl⟩ := isNumber_plus.1 h
      exact .plus isBlank_nil isBlank_nil hn
    · obtain ⟨n, hn, rfl⟩ := isNumber_minus.1 h
      exact .minus isBlank_nil isBlank_nil hn

theorem addend?_eq_some (hfree : SpaceFree cs) : addend? cs = some w ↔ IsAddend cs w.toInt := by
  rw [isAddend_iff hfree, ← signed?_eq_some]
  unfold addend?
  split
  · simp [← Int32.toInt_inj, eq_comm]
  · simp
  · simp
  · next hnil hplus hminus =>
    refine iff_of_false nofun ?_
    rintro (⟨h, -⟩ | ⟨ds, h | h, -⟩)
    · exact hnil h
    · exact hplus ds h
    · exact hminus ds h

/-! ### The letter `n` is the only one -/

theorem IsDigits.not_mem {n : Nat} (h : IsDigits ds n) : 'n' ∉ ds := fun hn => nomatch h.all _ hn

theorem IsBlank.not_mem (h : IsBlank cs) : 'n' ∉ cs := fun hn => nomatch h _ hn

theorem IsNumber.not_mem {v : Int} (h : IsNumber cs v) : 'n' ∉ cs := by
  cases h with
  | digits h => exact h.not_mem
  | plus h => simpa using h.not_mem
  | minus h => simpa using h.not_mem

theorem IsFactor.not_mem {v : Int} (h : IsFactor cs v) : 'n' ∉ cs := by
  cases h with
  | number h => exact h.not_mem
  | one => decide
  | plus => decide
  | minus => decide

theorem IsAddend.not_mem {v : Int} (h : IsAddend cs v) : 'n' ∉ cs := by
  cases h with
  | none => exact List.not_mem_nil
  | plus hbefore hafter h => simp [hbefore.not_mem, hafter.not_mem, h.not_mem]
  | minus hbefore hafter h => simp [hbefore.not_mem, hafter.not_mem, h.not_mem]

theorem cut?_append {factor : List Char} (h : 'n' ∉ factor) (addend : List Char) :
    cut? (factor ++ 'n' :: addend) = some (factor, addend) := by
  rw [cut?, Selector.dropWhile_ne_append h, Selector.takeWhile_ne_append h]

theorem cut?_of_not_mem (h : 'n' ∉ cs) : cut? cs = none := by
  rw [cut?, Selector.dropWhile_ne_eq_nil h]

/-- Numbers begin with no letter. -/
theorem not_isNumber_cons {c : Char} (hc : c.isDigit = false ∧ c ≠ '+' ∧ c ≠ '-') {v : Int} :
    ¬ IsNumber (c :: cs) v := by
  intro h
  cases h with
  | digits h => exact Bool.eq_false_iff.1 hc.1 (h.all c List.mem_cons_self)
  | plus => exact hc.2.1 rfl
  | minus => exact hc.2.2 rfl

theorem isWritten_odd : IsWritten ['o', 'd', 'd'] f ↔ f = ⟨2, 1⟩ := by
  constructor
  · intro h
    generalize hcs : ['o', 'd', 'd'] = cs at h
    cases h with
    | odd => rfl
    | even => cases hcs
    | place h => exact absurd (hcs ▸ h) (not_isNumber_cons (by decide))
    | places =>
      have hn : 'n' ∈ ['o', 'd', 'd'] := hcs ▸ List.mem_append_right _ List.mem_cons_self
      exact absurd hn (by decide)
  · rintro rfl
    exact .odd

theorem append_eq_even {head rest : List Char} (h : head ++ 'n' :: rest = ['e', 'v', 'e', 'n']) :
    head = ['e', 'v', 'e'] ∧ rest = [] := by
  have heven : ['e', 'v', 'e'] ++ 'n' :: [] = head ++ 'n' :: rest := h.symm
  obtain ⟨hhead, -, hrest⟩ :=
    (List.append_cons_inj_of_notMem (by decide) List.not_mem_nil).1 heven
  exact ⟨hhead.symm, hrest.symm⟩

theorem isWritten_even : IsWritten ['e', 'v', 'e', 'n'] f ↔ f = ⟨2, 0⟩ := by
  constructor
  · intro h
    generalize hcs : ['e', 'v', 'e', 'n'] = cs at h
    cases h with
    | odd => cases hcs
    | even => rfl
    | place h => exact absurd (hcs ▸ h) (not_isNumber_cons (by decide))
    | places ha =>
      obtain ⟨rfl, -⟩ := append_eq_even hcs.symm
      cases ha with
      | number h => exact absurd h (not_isNumber_cons (by decide))
  · rintro rfl
    exact .even

theorem isWritten_append {factor addend : List Char}
    (heven : factor ++ 'n' :: addend ≠ ['e', 'v', 'e', 'n']) :
    IsWritten (factor ++ 'n' :: addend) f ↔
      IsFactor factor f.a.toInt ∧ IsAddend addend f.b.toInt := by
  have hn : 'n' ∈ factor ++ 'n' :: addend := List.mem_append_right _ List.mem_cons_self
  constructor
  · intro h
    generalize htext : factor ++ 'n' :: addend = text at h heven hn
    cases h with
    | odd => exact absurd hn (by decide)
    | even => exact absurd rfl heven
    | place h => exact absurd hn h.not_mem
    | places ha hb =>
      obtain ⟨rfl, -, rfl⟩ :=
        (List.append_cons_inj_of_notMem ha.not_mem hb.not_mem).1 htext.symm
      exact ⟨ha, hb⟩
  · rintro ⟨ha, hb⟩
    exact .places ha hb

theorem isWritten_of_not_mem (hn : 'n' ∉ cs) (hodd : cs ≠ ['o', 'd', 'd']) :
    IsWritten cs f ↔ f.a = 0 ∧ IsNumber cs f.b.toInt := by
  constructor
  · intro h
    cases h with
    | odd => exact absurd rfl hodd
    | even => exact absurd (by decide) hn
    | place h => exact ⟨rfl, h⟩
    | places => exact absurd (List.mem_append_right _ List.mem_cons_self) hn
  · obtain ⟨a, b⟩ := f
    rintro ⟨rfl, h⟩
    exact .place h

/-- What is read without white space is what is written without white space. -/
theorem ofChars?_eq_some (hfree : SpaceFree cs) : ofChars? cs = some f ↔ IsWritten cs f := by
  by_cases hodd : cs = ['o', 'd', 'd']
  · rw [hodd, isWritten_odd, eq_comm (a := f)]
    exact Option.some_inj
  by_cases heven : cs = ['e', 'v', 'e', 'n']
  · rw [heven, isWritten_even, eq_comm (a := f)]
    exact Option.some_inj
  simp only [ofChars?, ofCut?, if_neg hodd, if_neg heven]
  by_cases hn : 'n' ∈ cs
  · obtain ⟨factor, addend, rfl, hfactor⟩ := List.eq_append_cons_of_mem hn
    rw [cut?_append hfactor, isWritten_append heven]
    simp only [Option.bind_eq_bind, Option.bind_eq_some_iff, factor?_eq_some,
      addend?_eq_some hfree.right.tail, Option.some.injEq]
    constructor
    · rintro ⟨a, ha, b, hb, rfl⟩
      exact ⟨ha, hb⟩
    · rintro ⟨ha, hb⟩
      exact ⟨f.a, ha, f.b, hb, rfl⟩
  · rw [cut?_of_not_mem hn, isWritten_of_not_mem hn hodd]
    simp only [Option.bind_eq_bind, Option.bind_eq_some_iff, signed?_eq_some, Option.some.injEq]
    constructor
    · rintro ⟨b, hb, rfl⟩
      exact ⟨rfl, hb⟩
    · rintro ⟨ha, hb⟩
      exact ⟨f.b, hb, by rw [← ha]⟩

/-! ### White space -/

theorem filter_of_spaceFree (h : SpaceFree cs) : cs.filter (!Text.isSpace ·) = cs :=
  List.filter_eq_self.2 fun c hc => by rw [Bool.eq_false_iff.2 (h c hc)]; rfl

theorem filter_of_isBlank (h : IsBlank cs) : cs.filter (!Text.isSpace ·) = [] :=
  List.filter_eq_nil_iff.2 fun c hc => by simp [h c hc]

theorem spaceFree_of_all (h : cs.all (!Text.isSpace ·) = true) : SpaceFree cs :=
  fun c hc => by simpa using List.all_eq_true.1 h c hc

theorem not_isSpace_of_isDigit {c : Char} (h : c.isDigit = true) : ¬ Text.isSpace c = true := by
  have hdigits : SpaceFree ((List.range 10).map Nat.digitChar) := spaceFree_of_all (by decide)
  exact hdigits c (Selector.mem_digits_of_isDigit h)

theorem not_isSpace_of_sign {c : Char} (h : c = '+' ∨ c = '-') : ¬ Text.isSpace c = true := by
  rcases h with rfl | rfl
  · exact nofun
  · exact nofun

theorem IsNumber.spaceFree {v : Int} (h : IsNumber cs v) : SpaceFree cs := by
  have hdigits : ∀ {ds n}, IsDigits ds n → SpaceFree ds :=
    fun h c hc => not_isSpace_of_isDigit (h.all c hc)
  cases h with
  | digits h => exact hdigits h
  | plus h => exact List.forall_mem_cons.2 ⟨nofun, hdigits h⟩
  | minus h => exact List.forall_mem_cons.2 ⟨nofun, hdigits h⟩

theorem IsFactor.spaceFree {v : Int} (h : IsFactor cs v) : SpaceFree cs := by
  cases h with
  | number h => exact h.spaceFree
  | one => exact nofun
  | plus => exact List.forall_mem_cons.2 ⟨nofun, nofun⟩
  | minus => exact List.forall_mem_cons.2 ⟨nofun, nofun⟩

theorem filter_signed {before after tail : List Char} {sign : Char} (hbefore : IsBlank before)
    (hsign : sign = '+' ∨ sign = '-') (hafter : IsBlank after) (htail : SpaceFree tail) :
    (before ++ sign :: (after ++ tail)).filter (!Text.isSpace ·) = sign :: tail := by
  rw [List.filter_append, List.filter_cons_of_pos (by simpa using not_isSpace_of_sign hsign),
    List.filter_append, filter_of_isBlank hbefore, filter_of_isBlank hafter,
    filter_of_spaceFree htail]
  rfl

/-- White space around the sign does not change what an addend is worth. -/
theorem isAddend_signed {before after tail : List Char} {sign : Char} (hbefore : IsBlank before)
    (hsign : sign = '+' ∨ sign = '-') (hafter : IsBlank after) (htail : SpaceFree tail) {v : Int} :
    IsAddend (before ++ sign :: (after ++ tail)) v ↔ IsNumber (sign :: tail) v := by
  have hdigits : ∀ {ds n}, IsDigits ds n → SpaceFree ds := fun h => (IsNumber.digits h).spaceFree
  have hfilter := filter_signed hbefore hsign hafter htail
  constructor
  · intro h
    generalize before ++ sign :: (after ++ tail) = cs at h hfilter
    cases h with
    | none => cases hfilter
    | plus hbefore' hafter' h =>
      rw [filter_signed hbefore' (.inl rfl) hafter' (hdigits h)] at hfilter
      exact hfilter ▸ .plus h
    | minus hbefore' hafter' h =>
      rw [filter_signed hbefore' (.inr rfl) hafter' (hdigits h)] at hfilter
      exact hfilter ▸ .minus h
  · intro h
    rcases hsign with rfl | rfl
    · obtain ⟨n, hn, rfl⟩ := isNumber_plus.1 h
      exact .plus hbefore hafter hn
    · obtain ⟨n, hn, rfl⟩ := isNumber_minus.1 h
      exact .minus hbefore hafter hn

theorem IsWritten.spacedAtSign (h : IsWritten text f) : SpacedAtSign text := by
  cases h with
  | odd => exact .free (spaceFree_of_all rfl)
  | even => exact .free (spaceFree_of_all rfl)
  | place h => exact .free h.spaceFree
  | @places _ _ _ b ha hb =>
    generalize b.toInt = v at hb
    cases hb with
    | none =>
      exact .free (List.forall_mem_append.2 ⟨ha.spaceFree, List.forall_mem_cons.2 ⟨nofun, nofun⟩⟩)
    | plus hbefore hafter h =>
      exact .around ha.spaceFree hbefore (.inl rfl) hafter (IsNumber.digits h).spaceFree
    | minus hbefore hafter h =>
      exact .around ha.spaceFree hbefore (.inr rfl) hafter (IsNumber.digits h).spaceFree

/-- White space that stands where it may can be left out. -/
theorem isWritten_filter (h : SpacedAtSign text) :
    IsWritten (text.filter (!Text.isSpace ·)) f ↔ IsWritten text f := by
  cases h with
  | free h => rw [filter_of_spaceFree h]
  | @around head before after tail sign hhead hbefore hsign hafter htail =>
    have hfilter : (head ++ 'n' :: (before ++ sign :: (after ++ tail))).filter (!Text.isSpace ·) =
        head ++ 'n' :: ([] ++ sign :: ([] ++ tail)) := by
      rw [List.filter_append, List.filter_cons_of_pos (by rfl), filter_of_spaceFree hhead,
        filter_signed hbefore hsign hafter htail]
      rfl
    have hne : ∀ before rest : List Char,
        head ++ 'n' :: (before ++ sign :: rest) ≠ ['e', 'v', 'e', 'n'] := fun _ _ heven =>
      List.append_ne_nil_of_right_ne_nil _ (List.cons_ne_nil _ _) (append_eq_even heven).2
    rw [hfilter, isWritten_append (hne _ _), isWritten_append (hne _ _),
      isAddend_signed isBlank_nil hsign isBlank_nil htail,
      isAddend_signed hbefore hsign hafter htail]

/-! ### The text of an argument -/

/-- The text in lower case and without white space. -/
def squeezed (text : List Char) : List Char :=
  Text.lowerAscii (text.filter (!Text.isSpace ·))

/-- The text in lower case and without the white space at its ends. -/
def trimmed (text : List Char) : List Char := Text.trimChars (Text.lowerAscii text)

theorem isSpace_toLower (c : Char) : Text.isSpace c.toLower = Text.isSpace c := by
  by_cases h : c.toNat < 128
  · exact Text.forall_ascii (P := fun c => Text.isSpace c.toLower = Text.isSpace c) (by decide) h
  · have hlower : c.toLower = c := by
      refine dif_neg fun hupper => h ?_
      have hle : c.toNat ≤ 90 := UInt32.le_iff_toNat_le.1 hupper.2
      omega
    rw [hlower]

theorem filter_dropWhile (kind : Char → Bool) (cs : List Char) :
    (cs.dropWhile kind).filter (!kind ·) = cs.filter (!kind ·) := by
  induction cs with
  | nil => rfl
  | cons c cs ih =>
    rw [List.dropWhile_cons]
    split
    · next h => rw [ih, List.filter_cons_of_neg (by simpa using h)]
    · rfl

theorem filter_trimmed (text : List Char) :
    (trimmed text).filter (!Text.isSpace ·) = squeezed text := by
  rw [trimmed, Text.trimChars, List.filter_reverse, filter_dropWhile, List.filter_reverse,
    List.reverse_reverse, filter_dropWhile, squeezed, Text.lowerAscii, Text.lowerAscii,
    List.filter_map]
  exact congrArg _ (List.filter_congr fun c _ => by simp [isSpace_toLower])

theorem spaceFree_squeezed (text : List Char) : SpaceFree (squeezed text) := by
  rw [← filter_trimmed]
  intro c hc
  simpa using List.of_mem_filter hc

/-- A text is written as a formula if it is one without white space, and has none in the wrong
place. -/
theorem isWritten_trimmed : IsWritten (trimmed text) f ↔
    SpacedAtSign (trimmed text) ∧ IsWritten (squeezed text) f := by
  rw [← filter_trimmed]
  constructor
  · intro h
    exact ⟨h.spacedAtSign, (isWritten_filter h.spacedAtSign).2 h⟩
  · rintro ⟨hspaced, h⟩
    exact (isWritten_filter hspaced).1 h

end Nth

namespace Selector

variable {cs t : List Char} {L : List Chain} {f : Nth}

/-! ### The pseudo-class -/

/-- The text of the pseudo-class `:nth-child` with an argument. -/
def nthChildText (argument : List Char) : List Char :=
  ':' :: (writeName "nth-child" ++ '(' :: enclosed argument [])

theorem isIdentifier_nthChild (rest : List Char) :
    IsIdentifier (writeName "nth-child" ++ '(' :: rest) "nth-child" ('(' :: rest) :=
  isIdentifier_writeName (by decide) (stopsName_cons (by decide) _)

/-- White space at the beginning of an argument is passed over before the formula is read, but a
formula is read without white space anyway. -/
theorem isFormula_of_isSpaces {s : List Char} (hcs : ')' ∉ cs) (hs : IsSpaces (enclosed cs []) s) :
    IsFormula s f t ↔ t = [')'] ∧ Nth.IsWritten (Nth.squeezed cs) f := by
  obtain ⟨run, formula, hrun⟩ := exists_isRun Text.isSpace cs
  obtain rfl := hs.unique (IsSpaces.enclose ⟨run, hrun⟩)
  have hformula : ')' ∉ formula := fun h => hcs (hrun.text_eq ▸ List.mem_append_right run h)
  have hsqueezed : Nth.squeezed cs = Text.lowerAscii (formula.filter (!Text.isSpace ·)) := by
    rw [Nth.squeezed, hrun.text_eq, List.filter_append, Nth.filter_of_isBlank hrun.all,
      List.nil_append]
  rw [← Nth.ofChars?_eq_some (Nth.spaceFree_squeezed cs), hsqueezed]
  constructor
  · intro h
    generalize htext : enclosed formula [] = text at h
    cases h with
    | mk hopen h =>
      obtain ⟨rfl, -, rfl⟩ := (List.append_cons_inj_of_notMem hformula List.not_mem_nil).1 htext
      exact ⟨rfl, h⟩
  · rintro ⟨rfl, h⟩
    exact .mk hformula h

theorem isSimple_nthChild (hcs : ')' ∉ cs) {x : Simple} : IsSimple (nthChildText cs) x t ↔
    t = [] ∧ ∃ f, Nth.IsWritten (Nth.squeezed cs) f ∧ x = .nthChild f := by
  have hlower : Text.lower "nth-child" = "nth-child" := Text.lower_eq_of_isLowerAscii (by decide)
  have hname := isIdentifier_nthChild (enclosed cs [])
  constructor
  · intro h
    generalize hs : nthChildText cs = s at h
    cases h with
    | hasClass => cases hs
    | hasId => cases hs
    | hasAttribute h => cases h <;> cases hs
    | plain hname' h =>
      cases hs
      obtain ⟨rfl, -⟩ := hname.unique hname'
      rw [hlower] at h
      cases h
    | counting hname' h h₁ hformula h₃ =>
      cases hs
      obtain ⟨rfl, hargument⟩ := hname.unique hname'
      cases hargument
      obtain ⟨rfl, hf⟩ := (isFormula_of_isSpaces hcs h₁).1 hformula
      cases (isSpaces_cons (by decide)).unique h₃
      rw [hlower] at h
      cases h
      exact ⟨rfl, _, hf, rfl⟩
    | not hname' h =>
      cases hs
      obtain ⟨rfl, -⟩ := hname.unique hname'
      exact absurd (hlower.symm.trans h) (by decide)
    | contains hname' h =>
      cases hs
      obtain ⟨rfl, -⟩ := hname.unique hname'
      exact absurd (hlower.symm.trans h) (by decide)
  · rintro ⟨rfl, f, hf, rfl⟩
    obtain ⟨s, hs⟩ := exists_isSpaces (enclosed cs [])
    refine .counting hname (hlower ▸ rfl) hs ((isFormula_of_isSpaces hcs hs).2 ⟨rfl, hf⟩) ?_
    exact isSpaces_cons (by decide)

theorem IsPart.exists_isSimple {relation : Combinator} {s : List Char} {p : Part}
    (h : IsPart relation (':' :: s) p t) : ∃ x u, IsSimple (':' :: s) x u := by
  cases h with
  | named hname => cases hname.begins
  | simples hsome h =>
    cases h with
    | nil => exact absurd rfl hsome
    | cons h => exact ⟨_, _, h⟩

theorem IsChain.exists_isSimple {s : List Char} {chain : Chain} (h : IsChain (':' :: s) chain t) :
    ∃ x u, IsSimple (':' :: s) x u := by
  cases h with
  | mk hspaces hlead hpart =>
    obtain rfl := (isSpaces_cons (by decide)).unique hspaces
    cases hlead with
    | mark hmark => cases hmark
    | none => exact hpart.exists_isSimple

/-- A list of chains that begins with a colon begins with a pseudo-class. -/
theorem IsList.exists_isSimple {s : List Char} (h : IsList (':' :: s) L t) :
    ∃ x u, IsSimple (':' :: s) x u := by
  cases h with
  | last h => exact h.exists_isSimple
  | comma h => exact h.exists_isSimple

theorem isSelector_nthChild (hcs : ')' ∉ cs) : IsSelector (nthChildText cs) L ↔
    ∃ f, Nth.IsWritten (Nth.squeezed cs) f ∧ L = [[⟨.descendant, none, [.nthChild f]⟩]] := by
  have hcolon : IsSpaces (nthChildText cs) (nthChildText cs) := isSpaces_cons (by decide)
  have hselector : ∀ f, Nth.IsWritten (Nth.squeezed cs) f →
      IsSelector (nthChildText cs) [[⟨.descendant, none, [.nthChild f]⟩]] := by
    intro f hf
    have hsimple := (isSimple_nthChild hcs).2 ⟨rfl, f, hf, rfl⟩
    have hpart : IsPart .descendant (nthChildText cs) ⟨.descendant, none, [.nthChild f]⟩ [] :=
      .simples (List.cons_ne_nil _ _) (.cons hsimple (.nil []))
    exact .list hcolon (.last (.mk hcolon (.none _) hpart (.nil isSpaces_nil)))
  constructor
  · intro h
    suffices hf : ∃ f, Nth.IsWritten (Nth.squeezed cs) f by
      obtain ⟨f, hf⟩ := hf
      exact ⟨f, hf, h.unique (hselector f hf)⟩
    cases h with
    | blank hblank => cases hcolon.unique hblank
    | list hspaces hlist =>
      obtain rfl := hcolon.unique hspaces
      obtain ⟨x, u, hx⟩ := hlist.exists_isSimple
      obtain ⟨-, f, hf, -⟩ := (isSimple_nthChild hcs).1 hx
      exact ⟨f, hf⟩
  · rintro ⟨f, hf, rfl⟩
    exact hselector f hf

/-- The text of the selector `:nth-child` with an argument. -/
def nthChildSource (argument : String) : String := ":nth-child(" ++ argument ++ ")"

theorem scan_nthChildSource {argument : String} (h : ')' ∉ argument.toList) (x : Selector) :
    scan (nthChildSource argument) = .ok x ↔ ∃ f, Nth.IsWritten (Nth.squeezed argument.toList) f ∧
      x = ⟨nthChildSource argument, [[⟨.descendant, none, [.nthChild f]⟩]]⟩ := by
  have htext : (nthChildSource argument).toList = nthChildText argument.toList := by
    rw [nthChildSource, String.toList_append, String.toList_append, List.append_assoc]
    rfl
  obtain ⟨source, alternatives⟩ := x
  rw [scan_eq_ok, htext, isSelector_nthChild h]
  simp only [Selector.mk.injEq]
  constructor
  · rintro ⟨hsource, f, hf, halternatives⟩
    exact ⟨f, hf, hsource, halternatives⟩
  · rintro ⟨f, hf, hsource, halternatives⟩
    exact ⟨hsource, f, hf, halternatives⟩

/-- The argument of `:nth-child` is taken just if it is written as a formula once it is in lower
case and all white space is left out. So if there is white space only at its ends and around the
sign behind the letter `n`, it is taken just if it is written as a formula. If there is white space
elsewhere it is not written as a formula, but it is taken if what is left without the white space
is. -/
theorem scan_nthChild_iff (argument : String) (h : ')' ∉ argument.toList) (x : Selector) :
    (scan (nthChildSource argument) = .ok x ↔
      ∃ f, Nth.IsWritten (Nth.squeezed argument.toList) f ∧
        x = ⟨nthChildSource argument, [[⟨.descendant, none, [.nthChild f]⟩]]⟩) ∧
    (scan (nthChildSource argument) = .ok x ∧ Nth.SpacedAtSign (Nth.trimmed argument.toList) ↔
      ∃ f, Nth.IsWritten (Nth.trimmed argument.toList) f ∧
        x = ⟨nthChildSource argument, [[⟨.descendant, none, [.nthChild f]⟩]]⟩) := by
  refine ⟨scan_nthChildSource h x, ?_⟩
  simp only [scan_nthChildSource h x, Nth.isWritten_trimmed]
  constructor
  · rintro ⟨⟨f, hf, hx⟩, hspaced⟩
    exact ⟨f, ⟨hspaced, hf⟩, hx⟩
  · rintro ⟨f, ⟨hspaced, hf⟩, hx⟩
    exact ⟨⟨f, hf, hx⟩, hspaced⟩

/-- White space may stand at the ends and around the sign. -/
theorem scan_nthChild_around_sign : ')' ∉ " 2N + 1".toList ∧
    scan (nthChildSource " 2N + 1") = .ok ⟨nthChildSource " 2N + 1",
      [[⟨.descendant, none, [.nthChild ⟨2, 1⟩]⟩]]⟩ ∧
    Nth.SpacedAtSign (Nth.trimmed " 2N + 1".toList) := by
  have htwo : Nth.IsDigits ['2'] 2 := ⟨nofun, List.all_eq_true.1 rfl, rfl⟩
  have hone : Nth.IsDigits ['1'] 1 := ⟨nofun, List.all_eq_true.1 rfl, rfl⟩
  have hspace : Nth.IsBlank [' '] := List.forall_mem_singleton.2 rfl
  have hwritten : Nth.IsWritten (['2'] ++ 'n' :: ([' '] ++ '+' :: ([' '] ++ ['1']))) ⟨2, 1⟩ :=
    .places (.number (.digits htwo)) (.plus hspace hspace hone)
  exact ⟨by decide, (scan_nthChild_iff " 2N + 1" (by decide) _).2.2 ⟨_, hwritten, rfl⟩⟩

/-- Two digits with white space between them are no formula, but are read as one number. -/
theorem scan_nthChild_split_number : ')' ∉ "1 2".toList ∧
    (¬ ∃ f, Nth.IsWritten (Nth.trimmed "1 2".toList) f) ∧
    scan (nthChildSource "1 2") = .ok ⟨nthChildSource "1 2",
      [[⟨.descendant, none, [.nthChild ⟨0, 12⟩]⟩]]⟩ := by
  have hdigits : Nth.IsDigits ['1', '2'] 12 := ⟨nofun, List.all_eq_true.1 rfl, rfl⟩
  have hnumber : Nth.IsWritten ['1', '2'] ⟨0, 12⟩ := .place (.digits hdigits)
  refine ⟨by decide, ?_, (scan_nthChildSource (by decide) _).2 ⟨_, hnumber, rfl⟩⟩
  rintro ⟨f, hf⟩
  have hspaced := hf.spacedAtSign
  generalize htext : Nth.trimmed "1 2".toList = text at hspaced
  cases hspaced with
  | free h => exact h ' ' (htext ▸ by decide) rfl
  | around =>
    have hn : 'n' ∈ Nth.trimmed "1 2".toList := htext ▸ List.mem_append_right _ List.mem_cons_self
    exact absurd hn (by decide)

end Selector

end MarkupTree
