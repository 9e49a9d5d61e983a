import MarkupTree.Text.Tokens
import Mathlib.Data.List.TakeWhile

/-!
# Words between white space

A text splits at every white space character, and everything about its tokens follows from that:
they are words, words with blanks between them are read back as they are, and a text has no token
iff it is blank. Nothing is left of a text that is trimmed iff it is blank.
-/

namespace MarkupTree.Text

/-- Not empty, without white space. -/
def IsWord (cs : List Char) : Prop := cs ≠ [] ∧ ∀ c ∈ cs, ¬ isSpace c = true

/-- Trimming leaves nothing of the blank texts only. -/
theorem isEmpty_trim (s : String) : (trim s).isEmpty = isBlank s := by
  rw [Bool.eq_iff_iff, String.isEmpty_iff, ← String.toList_eq_nil_iff, trim, String.toList_ofList,
    trimChars, List.reverse_eq_nil_iff, List.dropWhile_eq_nil_iff, isBlank, List.all_eq_true]
  simp only [List.mem_reverse]
  constructor
  · intro h c hc
    rw [← List.takeWhile_append_dropWhile (p := isSpace) (l := s.toList)] at hc
    rcases List.mem_append.1 hc with hc | hc
    · exact List.mem_takeWhile_imp hc
    · exact h c hc
  · exact fun h c hc => h c ((List.dropWhile_suffix _).subset hc)

section words

variable {c : Char} {begun cs ds w : List Char}

theorem wordsFrom_append_space (hc : isSpace c = true) :
    wordsFrom begun (cs ++ c :: ds) = wordsFrom begun cs ++ wordsFrom [] ds := by
  induction cs generalizing begun with
  | nil => cases begun <;> simp [wordsFrom, hc]
  | cons b cs ih =>
    rw [List.cons_append, wordsFrom, wordsFrom]
    split
    · split
      · exact ih
      · rw [ih, List.cons_append]
    · exact ih

theorem wordsFrom_cons_of_not_isSpace (hc : ¬ isSpace c = true) :
    wordsFrom begun (c :: cs) = wordsFrom (c :: begun) cs := by
  rw [wordsFrom, if_neg hc]

/-- Without white space the begun word goes on to the end. -/
theorem wordsFrom_of_not_isSpace (h : ∀ c ∈ cs, ¬ isSpace c = true) :
    wordsFrom begun cs = wordsFrom (cs.reverse ++ begun) [] := by
  induction cs generalizing begun with
  | nil => rfl
  | cons c cs ih =>
    obtain ⟨hc, hcs⟩ := List.forall_mem_cons.1 h
    rw [wordsFrom_cons_of_not_isSpace hc, ih hcs, List.reverse_cons, List.append_assoc,
      List.singleton_append]

theorem IsWord.wordsFrom_eq (h : IsWord w) : wordsFrom [] w = [w] := by
  rw [wordsFrom_of_not_isSpace h.2, List.append_nil, wordsFrom, if_neg (by simpa using h.1),
    List.reverse_reverse]

theorem isWord_reverse (hne : begun.isEmpty = false) (h : ∀ c ∈ begun, ¬ isSpace c = true) :
    IsWord begun.reverse :=
  ⟨by simpa using hne, fun c hc => h c (List.mem_reverse.1 hc)⟩

theorem isWord_of_mem_wordsFrom (h : ∀ c ∈ begun, ¬ isSpace c = true)
    (hw : w ∈ wordsFrom begun cs) : IsWord w := by
  induction cs generalizing begun with
  | nil =>
    rw [wordsFrom] at hw
    split at hw
    · cases hw
    · rename_i hne
      rw [List.mem_singleton.1 hw]
      exact isWord_reverse (Bool.eq_false_iff.2 hne) h
  | cons c cs ih =>
    rw [wordsFrom] at hw
    split at hw
    · split at hw
      · exact ih (List.forall_mem_nil _) hw
      · rename_i hne
        rcases List.mem_cons.1 hw with rfl | hw
        · exact isWord_reverse (Bool.eq_false_iff.2 hne) h
        · exact ih (List.forall_mem_nil _) hw
    · rename_i hc
      exact ih (List.forall_mem_cons.2 ⟨hc, h⟩) hw

theorem wordsFrom_eq_nil : wordsFrom begun cs = [] ↔ begun = [] ∧ cs.all isSpace = true := by
  induction cs generalizing begun with
  | nil => cases begun <;> simp [wordsFrom]
  | cons c cs ih =>
    by_cases hc : isSpace c = true
    · cases begun <;> simp [wordsFrom, hc, ih]
    · simp [wordsFrom, hc, ih]

end words

section tokens

variable {s t : String} {ts : List String}

theorem tokens_append_blank (s t : String) : tokens (s ++ " " ++ t) = tokens s ++ tokens t := by
  have happ : (s ++ " " ++ t).toList = s.toList ++ ' ' :: t.toList := by
    rw [String.toList_append, String.toList_append, List.append_assoc]
    rfl
  rw [tokens, happ, wordsFrom_append_space (by decide), List.map_append]
  rfl

theorem tokens_of_isWord (h : IsWord t.toList) : tokens t = [t] := by
  rw [tokens, h.wordsFrom_eq, List.map_singleton, String.ofList_toList]

theorem isWord_of_mem_tokens (h : t ∈ tokens s) : IsWord t.toList := by
  obtain ⟨w, hw, rfl⟩ := List.mem_map.1 h
  rw [String.toList_ofList]
  exact isWord_of_mem_wordsFrom (List.forall_mem_nil _) hw

theorem tokens_eq_nil : tokens s = [] ↔ isBlank s = true := by
  rw [tokens, List.map_eq_nil_iff, wordsFrom_eq_nil, and_iff_right rfl, isBlank]

/-- Words with blanks between them are read back. -/
theorem tokens_intercalate : ∀ {ts : List String}, (∀ t ∈ ts, IsWord t.toList) →
    tokens (" ".intercalate ts) = ts
  | [], _ => by
    rw [String.intercalate_nil]
    rfl
  | [t], h => by
    rw [String.intercalate_singleton]
    exact tokens_of_isWord (h t List.mem_cons_self)
  | t :: u :: ts, h => by
    obtain ⟨ht, hts⟩ := List.forall_mem_cons.1 h
    rw [String.intercalate_cons_cons, tokens_append_blank, tokens_of_isWord ht,
      tokens_intercalate hts, List.singleton_append]

theorem hasToken_iff : hasToken s t = true ↔ t ∈ tokens s := by
  rw [hasToken, Bool.and_eq_true, List.contains_iff_mem, and_iff_right_iff_imp]
  intro h
  have hne := (isWord_of_mem_tokens h).1
  simpa using hne

end tokens

section distinct

variable {α : Type} [BEq α]

theorem distinct_eq_nil : ∀ {as : List α}, distinct as = [] ↔ as = []
  | [] => by rw [distinct]
  | a :: as => by simp [distinct]

variable [LawfulBEq α] {a : α}

theorem distinct_filter (p : α → Bool) : ∀ as : List α,
    distinct (as.filter p) = (distinct as).filter p
  | [] => rfl
  | a :: as => by
    have ih := distinct_filter p as
    by_cases ha : p a = true
    · rw [List.filter_cons_of_pos ha, distinct, distinct, List.filter_cons_of_pos ha, ih,
        List.filter_filter, List.filter_filter]
      exact congrArg (a :: ·) (List.filter_congr fun b _ => Bool.and_comm _ _)
    · rw [List.filter_cons_of_neg ha, distinct, List.filter_cons_of_neg ha, List.filter_filter, ih]
      refine List.filter_congr fun b _ => ?_
      by_cases hb : b = a
      · simp [hb, ha]
      · simp [hb]

theorem distinct_concat : ∀ {as : List α}, a ∉ as → distinct (as ++ [a]) = distinct as ++ [a]
  | [], _ => rfl
  | b :: bs, h => by
    obtain ⟨hne, hbs⟩ := not_or.1 (mt List.mem_cons.2 h)
    rw [List.cons_append, distinct, distinct_concat hbs, List.filter_append, distinct,
      List.cons_append]
    simp [hne]

/-- The entries stand in the order in which they occur first. -/
theorem pairwise_idxOf_distinct : ∀ as : List α,
    (distinct as).Pairwise fun b c => as.idxOf b < as.idxOf c
  | [] => .nil
  | a :: as => by
    have hplace : ∀ b ∈ (distinct as).filter (· != a), (a :: as).idxOf b = as.idxOf b + 1 := by
      intro b hb
      have hne : b ≠ a := by simpa using (List.mem_filter.1 hb).2
      rw [List.idxOf_cons, beq_false_of_ne hne.symm, cond_false]
    rw [distinct, List.pairwise_cons]
    constructor
    · intro b hb
      rw [hplace b hb, List.idxOf_cons_self]
      exact Nat.succ_pos _
    · refine ((pairwise_idxOf_distinct as).filter _).imp_of_mem fun hb hc hlt => ?_
      rw [hplace _ hb, hplace _ hc]
      exact Nat.succ_lt_succ hlt

/-- The entries of `as`, each once, in the order in which they occur first. -/
structure FirstOccurrences (as bs : List α) : Prop where
  nodup : bs.Nodup
  mem_iff : ∀ b, b ∈ bs ↔ b ∈ as
  ordered : bs.Pairwise fun b c => as.idxOf b < as.idxOf c

theorem firstOccurrences_distinct (as : List α) : FirstOccurrences as (distinct as) :=
  ⟨nodup_distinct as, fun _ => mem_distinct, pairwise_idxOf_distinct as⟩

end distinct

end MarkupTree.Text
