import MarkupTree.Proofs.Selector.Places
import MarkupTree.Selector.Nth.Stepwise

/-!
# Formulas without a fault

The test of a place runs through without a fault: the distance to the addend is a word, and it is
not the least word, which is the only one whose quotient can overflow. What the run answers is
right in integer arithmetic, and so are the counting pseudo-classes, which ask for the places that
a document can have.
-/

namespace MarkupTree

namespace Word

variable {n : Int} {x y z : Int64}

theorem exactly_eq_ok : exactly n = .ok z ↔ z.toInt = n := by
  have hlow := z.le_toInt
  have hhigh := z.toInt_lt
  unfold exactly
  constructor
  · intro h
    split at h
    · cases h
      rw [Int64.toInt_ofInt_of_le] <;> omega
    · cases h
  · rintro rfl
    rw [if_pos (by omega), Int64.ofInt_toInt]

theorem difference_eq_ok : difference x y = .ok z ↔ z.toInt = x.toInt - y.toInt :=
  exactly_eq_ok

theorem quotient_eq_ok : quotient x y = .ok z ↔ y ≠ 0 ∧ z.toInt = x.toInt.tdiv y.toInt := by
  unfold quotient
  split
  · simp [*]
  · rw [exactly_eq_ok, and_iff_right ‹_›]

theorem quotient_of_ne (hy : y ≠ 0) (h : x ≠ Int64.minValue ∨ y ≠ -1) :
    quotient x y = .ok (x / y) := by
  refine quotient_eq_ok.2 ⟨hy, ?_⟩
  rcases h with hx | hminus
  · exact Int64.toInt_div_of_ne_left _ _ hx
  · exact Int64.toInt_div_of_ne_right _ _ hminus

theorem remainder_of_ne (hy : y ≠ 0) (h : x ≠ Int64.minValue ∨ y ≠ -1) :
    remainder x y = .ok (x % y) :=
  Document.bind_eq_ok.2 ⟨_, quotient_of_ne hy h, exactly_eq_ok.2 (Int64.toInt_mod _ _)⟩

end Word

namespace Nth

variable {f : Nth} {place : Nat}

/-- The run has no fault, and it answers what words answer that wrap around. -/
theorem compute_eq (h : place ≤ 2 ^ 62) : f.compute place = .ok (f.accepts place) := by
  have hdistance : Word.difference (Int64.ofNat place) f.b.toInt64 =
      .ok (Int64.ofNat place - f.b.toInt64) := by
    rw [Word.difference_eq_ok, toInt_distance h, Int64.toInt_ofNat_of_lt (by omega),
      Int32.toInt_toInt64]
  have hne : _ ∨ f.a.toInt64 ≠ -1 := .inl (distance_ne_minValue h f.b)
  unfold compute accepts
  by_cases ha : f.a.toInt64 = 0
  · rw [if_pos ha, if_pos ha]
    rfl
  · have hremainder := Word.remainder_of_ne ha hne
    rw [if_neg ha, if_neg ha]
    refine Document.bind_eq_ok.2 ⟨_, hdistance, Document.bind_eq_ok.2 ⟨_, hremainder, ?_⟩⟩
    split
    · rename_i hmod
      refine Document.bind_eq_ok.2 ⟨_, Word.quotient_of_ne ha hne, ?_⟩
      rw [Document.ok_eq_ok]
      simp [hmod]
    · rename_i hmod
      rw [Document.ok_eq_ok]
      simp [hmod]

/-- The run for a place has no fault and answers whether the place is one of the formula. -/
structure Exact (f : Nth) (place : Nat) (answer : Bool) : Prop where
  computed : f.compute place = .ok answer
  correct : answer = true ↔ ∃ m : Nat, f.a.toInt * m + f.b.toInt = place

theorem exact_accepts (h : place ≤ 2 ^ 62) : f.Exact place (f.accepts place) :=
  ⟨compute_eq h, accepts_iff h⟩

end Nth

namespace Counting

open Document

variable {c : Counting} {d : Document} {e : NodeId} {m n : Nat}

theorem Answers.exact_fromFirst (h : c.Answers d e m n) (f : Nth) (hm : m + 1 ≤ 2 ^ 62) :
    f.Exact (m + 1) ((c.fromFirst f).holds d e) := by
  rw [h.fromFirst]
  exact Nth.exact_accepts hm

theorem Answers.exact_fromLast (h : c.Answers d e m n) (f : Nth) (hn : n + 1 ≤ 2 ^ 62) :
    f.Exact (n + 1) ((c.fromLast f).holds d e) := by
  rw [h.fromLast]
  exact Nth.exact_accepts hn

end Counting

namespace Document

/-- Formulas are computed exactly for all places up to `2 ^ 62`. So are the counting pseudo-classes,
which ask for the place of an element in its row, or among the elements of the row that have its
name, from either end. -/
theorem formulas_exact (f : Nth) :
    (∀ place ≤ 2 ^ 62, f.Exact place (f.accepts place)) ∧
    ∀ d e, Reachable d → d.slots.size ≤ 2 ^ 62 → d.isElement e = true →
      ∃ before after, d.IsRow (before ++ e :: after) ∧
        f.Exact (before.length + 1) ((Simple.nthChild f).holds d e) ∧
        f.Exact (after.length + 1) ((Simple.nthLastChild f).holds d e) ∧
        f.Exact ((d.namesakes before e).length + 1) ((Simple.nthOfType f).holds d e) ∧
        f.Exact ((d.namesakes after e).length + 1) ((Simple.nthLastOfType f).holds d e) := by
  refine ⟨fun place => Nth.exact_accepts, fun d e h hsize he => ?_⟩
  have hlinked := (wellFormed_of_reachable h).linked
  obtain ⟨row, hrow, hmem⟩ := hlinked.exists_isRow he
  obtain ⟨before, after, rfl⟩ := List.append_of_mem hmem
  have hall := hlinked.answers_ofAll hrow
  have htype := hlinked.answers_ofType hrow
  have hlen := Nat.le_trans (hlinked.length_row hrow) hsize
  rw [List.length_append, List.length_cons] at hlen
  have hbefore : (d.namesakes before e).length ≤ before.length := List.length_filter_le _ _
  have hafter : (d.namesakes after e).length ≤ after.length := List.length_filter_le _ _
  refine ⟨before, after, hrow, ?_, ?_, ?_, ?_⟩
  · exact hall.exact_fromFirst f (by omega)
  · exact hall.exact_fromLast f (by omega)
  · exact htype.exact_fromFirst f (by omega)
  · exact htype.exact_fromLast f (by omega)

/-- The least addend is taken away from zero, and the distance is divided by `-1`. -/
theorem formulas_exact_least : ∃ d : Document, Reachable d ∧ d.slots.size ≤ 2 ^ 62 ∧
    d.isElement ⟨1, 0⟩ = true ∧ 0 ≤ 2 ^ 62 ∧ Nth.Exact ⟨-1, Int32.minValue⟩ 0 false ∧
    ∃ before after, d.IsRow (before ++ ⟨1, 0⟩ :: after) ∧
      Nth.Exact ⟨-1, Int32.minValue⟩ (before.length + 1)
        ((Simple.nthChild ⟨-1, Int32.minValue⟩).holds d ⟨1, 0⟩) := by
  obtain ⟨d, hd, hsize, he⟩ : ∃ d : Document, Reachable d ∧ d.slots.size ≤ 2 ^ 62 ∧
      d.isElement ⟨1, 0⟩ = true := by
    refine ⟨_, @Reachable.ofSignals .default [.startTag "p" [], .endTag "p"] _ rfl, ?_, ?_⟩
    · decide +kernel
    · decide +kernel
  obtain ⟨hplaces, htests⟩ := formulas_exact ⟨-1, Int32.minValue⟩
  obtain ⟨before, after, hrow, hchild, -⟩ := htests d ⟨1, 0⟩ hd hsize he
  have hzero := hplaces 0 (by decide)
  have haccepts : Nth.accepts ⟨-1, Int32.minValue⟩ 0 = false := by decide
  rw [haccepts] at hzero
  exact ⟨d, hd, hsize, he, by decide, hzero, before, after, hrow, hchild⟩

end Document

end MarkupTree
