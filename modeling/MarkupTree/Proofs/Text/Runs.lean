import MarkupTree.Proofs.Text.Tokens
import Mathlib.Data.List.Basic

/-!
# Maximal runs

A run is a stretch of a text without white space, named by the places between which it stands. It
is maximal if it is part of no longer run, that is, if there is white space or an end of the text
on either side of it. The tokens of a text are its maximal runs from left to right.
-/

namespace MarkupTree.Text

variable {before w after cs begun : List Char} {ws : List (List Char)}
  {i j i' j' start stop : Nat} {c : Char}

def SpaceAt (cs : List Char) (k : Nat) : Prop := ∃ c ∈ cs[k]?, isSpace c = true

/-- From place `i` up to place `j` there is something, and no white space. -/
structure IsRun (cs : List Char) (i j : Nat) : Prop where
  lt : i < j
  le : j ≤ cs.length
  solid : ∀ k, i ≤ k → k < j → ¬ SpaceAt cs k

/-- A run that is part of no longer one. -/
def IsMaximalRun (cs : List Char) (i j : Nat) : Prop :=
  IsRun cs i j ∧ ∀ i' j', IsRun cs i' j' → i' ≤ i → j ≤ j' → i' = i ∧ j' = j

/-- The texts `ws` are the maximal runs of a text from a place on, in order. -/
def RunsFrom (cs : List Char) (start : Nat) (ws : List (List Char)) : Prop :=
  ∃ places : List (Nat × Nat), places.Pairwise (fun p q => p.2 < q.1) ∧
    (∀ i j, (i, j) ∈ places ↔ start ≤ i ∧ IsMaximalRun cs i j) ∧
    ws = places.map fun p => cs.extract p.1 p.2

/-- Nothing, or white space at the end. -/
def EndsInSpace (cs : List Char) : Prop := ∀ c ∈ cs.getLast?, isSpace c = true

/-- Nothing, or white space at the beginning. -/
def BeginsInSpace (cs : List Char) : Prop := ∀ c ∈ cs.head?, isSpace c = true

/-- A text stands in another one, bounded on either side by white space or an end of that text. -/
def StandsAlone (w cs : List Char) : Prop :=
  ∃ before after, cs = before ++ w ++ after ∧ EndsInSpace before ∧ BeginsInSpace after

theorem spaceAt_append_cons :
    SpaceAt (before ++ c :: after) before.length ↔ isSpace c = true := by
  rw [SpaceAt, List.getElem?_append_right (Nat.le_refl _), Nat.sub_self, List.getElem?_cons_zero]
  exact ⟨fun ⟨_, hc, h⟩ => Option.mem_some.1 hc ▸ h, fun h => ⟨c, rfl, h⟩⟩

/-- A run is maximal iff it could not have begun earlier nor ended later. -/
theorem isMaximalRun_iff : IsMaximalRun cs i j ↔
    IsRun cs i j ∧ (0 < i → SpaceAt cs (i - 1)) ∧ (j < cs.length → SpaceAt cs j) := by
  constructor
  · rintro ⟨hrun, hmax⟩
    have hlt := hrun.lt
    refine ⟨hrun, fun hi => ?_, fun hj => ?_⟩
    · by_contra hspace
      have hlonger : IsRun cs (i - 1) j := by
        refine ⟨by omega, hrun.le, fun k hik hkj => ?_⟩
        rcases Nat.eq_or_lt_of_le hik with rfl | hik
        · exact hspace
        · exact hrun.solid k (by omega) hkj
      have hsame := hmax _ _ hlonger (by omega) (Nat.le_refl j)
      omega
    · by_contra hspace
      have hlonger : IsRun cs i (j + 1) := by
        refine ⟨by omega, hj, fun k hik hkj => ?_⟩
        rcases Nat.eq_or_lt_of_le (Nat.le_of_lt_succ hkj) with rfl | hkj
        · exact hspace
        · exact hrun.solid k hik hkj
      have hsame := hmax _ _ hlonger (Nat.le_refl i) (by omega)
      omega
  · rintro ⟨hrun, hleft, hright⟩
    have hlt := hrun.lt
    refine ⟨hrun, fun i' j' hrun' hi hj => ⟨?_, ?_⟩⟩
    · by_contra hne
      exact hrun'.solid (i - 1) (by omega) (by omega) (hleft (by omega))
    · by_contra hne
      have hle := hrun'.le
      exact hrun'.solid j (by omega) (by omega) (hright (by omega))

/-- Maximal runs that share a place are one. -/
theorem IsMaximalRun.eq_of_lt (h : IsMaximalRun cs i j) (h' : IsMaximalRun cs i' j')
    (hlt : i < j') (hlt' : i' < j) : i' = i ∧ j' = j := by
  obtain ⟨hrun, hleft, hright⟩ := isMaximalRun_iff.1 h
  obtain ⟨hrun', hleft', hright'⟩ := isMaximalRun_iff.1 h'
  have hle := hrun.le
  have hle' := hrun'.le
  constructor
  · by_contra hne
    rcases Nat.lt_or_gt_of_ne hne with hi | hi
    · exact hrun'.solid (i - 1) (by omega) (by omega) (hleft (by omega))
    · exact hrun.solid (i' - 1) (by omega) (by omega) (hleft' (by omega))
  · by_contra hne
    rcases Nat.lt_or_gt_of_ne hne with hj | hj
    · exact hrun.solid j' (by omega) hj (hright' (by omega))
    · exact hrun'.solid j (by omega) hj (hright (by omega))

/-! ### Texts cut in three -/

theorem exists_cut (hij : i ≤ j) (hj : j ≤ cs.length) : ∃ before w after : List Char,
    cs = before ++ w ++ after ∧ before.length = i ∧ before.length + w.length = j := by
  refine ⟨cs.take i, (cs.take j).drop i, cs.drop j, ?_, ?_, ?_⟩
  · have htake : cs.take i = (cs.take j).take i := by rw [List.take_take, Nat.min_eq_left hij]
    rw [htake, List.take_append_drop, List.take_append_drop]
  · rw [List.length_take]
    omega
  · rw [List.length_drop, List.length_take, List.length_take]
    omega

theorem extract_cut :
    (before ++ w ++ after).extract before.length (before.length + w.length) = w := by
  rw [List.extract_eq_take_drop, List.append_assoc, List.drop_left, Nat.add_sub_cancel_left,
    List.take_left]

theorem isRun_cut :
    IsRun (before ++ w ++ after) before.length (before.length + w.length) ↔ IsWord w := by
  have hplace : ∀ k, before.length ≤ k → k < before.length + w.length →
      (before ++ w ++ after)[k]? = w[k - before.length]? := by
    intro k hle hlt
    rw [List.append_assoc, List.getElem?_append_right hle, List.getElem?_append_left (by omega)]
  constructor
  · rintro ⟨hlt, -, hsolid⟩
    refine ⟨List.length_pos_iff.1 (by omega), fun c hc hspace => ?_⟩
    obtain ⟨n, hn, rfl⟩ := List.getElem_of_mem hc
    refine hsolid (before.length + n) (by omega) (by omega) ⟨w[n], ?_, hspace⟩
    rw [hplace _ (by omega) (by omega), Nat.add_sub_cancel_left]
    exact List.getElem?_eq_getElem hn
  · rintro ⟨hne, hsolid⟩
    have hpos := List.length_pos_iff.2 hne
    refine ⟨by omega, ?_, ?_⟩
    · rw [List.length_append, List.length_append]
      omega
    · rintro k hle hlt ⟨c, hc, hspace⟩
      rw [hplace k hle hlt] at hc
      exact hsolid c (List.mem_of_getElem? hc) hspace

theorem isMaximalRun_cut :
    IsMaximalRun (before ++ w ++ after) before.length (before.length + w.length) ↔
      IsWord w ∧ EndsInSpace before ∧ BeginsInSpace after := by
  rw [isMaximalRun_iff, isRun_cut]
  refine and_congr_right fun _ => and_congr ?_ ?_
  · rcases List.eq_nil_or_concat before with rfl | ⟨front, c, rfl⟩
    · simp [EndsInSpace]
    · have htext : front ++ [c] ++ w ++ after = front ++ c :: (w ++ after) := by simp
      rw [List.concat_eq_append, htext, List.length_append, List.length_singleton,
        Nat.add_sub_cancel, spaceAt_append_cons]
      simp [EndsInSpace]
  · cases after with
    | nil => simp [BeginsInSpace]
    | cons c after =>
      rw [← List.length_append, spaceAt_append_cons]
      simp [BeginsInSpace]

/-! ### Runs in order -/

theorem runsFrom_nil (h : cs.length ≤ start) : RunsFrom cs start [] := by
  refine ⟨[], .nil, fun i j => iff_of_false List.not_mem_nil ?_, rfl⟩
  rintro ⟨hi, ⟨⟨hlt, hle, -⟩, -⟩⟩
  omega

theorem RunsFrom.skip (hspace : SpaceAt cs start) (h : RunsFrom cs (start + 1) ws) :
    RunsFrom cs start ws := by
  obtain ⟨places, hordered, hmem, hws⟩ := h
  refine ⟨places, hordered, fun i j => (hmem i j).trans ?_, hws⟩
  constructor
  · rintro ⟨hi, hmax⟩
    exact ⟨by omega, hmax⟩
  · rintro ⟨hi, hmax⟩
    refine ⟨Nat.lt_of_le_of_ne hi ?_, hmax⟩
    rintro rfl
    exact hmax.1.solid start (Nat.le_refl start) hmax.1.lt hspace

theorem RunsFrom.cons (hrun : IsMaximalRun cs start stop) (h : RunsFrom cs stop ws) :
    RunsFrom cs start (cs.extract start stop :: ws) := by
  obtain ⟨places, hordered, hmem, rfl⟩ := h
  refine ⟨(start, stop) :: places, List.pairwise_cons.2 ⟨?_, hordered⟩, fun i j => ?_, rfl⟩
  · rintro ⟨i, j⟩ hp
    obtain ⟨hi, hmax⟩ := (hmem i j).1 hp
    have hlt := hmax.1.lt
    have hle := hmax.1.le
    -- Behind a maximal run there is white space, where no run begins.
    have hspace := (isMaximalRun_iff.1 hrun).2.2 (by omega)
    refine Nat.lt_of_le_of_ne hi ?_
    rintro rfl
    exact hmax.1.solid stop (Nat.le_refl stop) hlt hspace
  · rw [List.mem_cons, hmem, Prod.mk.injEq]
    have hlt := hrun.1.lt
    constructor
    · rintro (⟨rfl, rfl⟩ | ⟨hi, hmax⟩)
      · exact ⟨Nat.le_refl i, hrun⟩
      · exact ⟨by omega, hmax⟩
    · rintro ⟨hi, hmax⟩
      by_cases hstop : i < stop
      · exact .inl (hrun.eq_of_lt hmax (Nat.lt_of_le_of_lt hi hmax.1.lt) hstop)
      · exact .inr ⟨Nat.not_lt.1 hstop, hmax⟩

theorem RunsFrom.cons_word (hw : IsWord w) (hbefore : EndsInSpace before)
    (hafter : BeginsInSpace after)
    (h : RunsFrom (before ++ w ++ after) (before.length + w.length) ws) :
    RunsFrom (before ++ w ++ after) before.length (w :: ws) := by
  have hcons := h.cons (isMaximalRun_cut.2 ⟨hw, hbefore, hafter⟩)
  rwa [extract_cut] at hcons

/-- The words of a text are its maximal runs from the word on that is already begun. -/
theorem runsFrom_wordsFrom (hbefore : EndsInSpace before)
    (hbegun : ∀ c ∈ begun, ¬ isSpace c = true) :
    RunsFrom (before ++ begun.reverse ++ cs) before.length (wordsFrom begun cs) := by
  induction cs generalizing before begun with
  | nil =>
    rw [wordsFrom]
    split
    · rename_i hnil
      obtain rfl := List.isEmpty_iff.1 hnil
      exact runsFrom_nil (by simp)
    · rename_i hne
      have hword := isWord_reverse (Bool.eq_false_iff.2 hne) hbegun
      exact (runsFrom_nil (by simp)).cons_word hword hbefore (by simp [BeginsInSpace])
  | cons c cs ih =>
    by_cases hc : isSpace c = true
    · -- The white space ends the word that is begun, and the next one begins behind it.
      have hrest : RunsFrom (before ++ begun.reverse ++ c :: cs)
          (before.length + begun.reverse.length) (wordsFrom [] cs) := by
        have hih := @ih (before ++ begun.reverse ++ [c]) [] (by simp [EndsInSpace, hc])
          (List.forall_mem_nil _)
        rw [List.reverse_nil, List.append_nil, List.append_assoc, List.singleton_append,
          List.length_append, List.length_singleton] at hih
        rw [← List.length_append]
        exact hih.skip (spaceAt_append_cons.2 hc)
      rw [wordsFrom, if_pos hc]
      split
      · rename_i hnil
        obtain rfl := List.isEmpty_iff.1 hnil
        exact hrest
      · rename_i hne
        have hword := isWord_reverse (Bool.eq_false_iff.2 hne) hbegun
        exact hrest.cons_word hword hbefore (by simp [BeginsInSpace, hc])
    · have hih := @ih before (c :: begun) hbefore (List.forall_mem_cons.2 ⟨hc, hbegun⟩)
      rw [List.reverse_cons, ← List.append_assoc, List.append_assoc, List.singleton_append] at hih
      rwa [wordsFrom_cons_of_not_isSpace hc]

/-- The maximal runs of a text are the words that stand alone in it. -/
theorem RunsFrom.mem_iff (h : RunsFrom cs 0 ws) : w ∈ ws ↔ IsWord w ∧ StandsAlone w cs := by
  obtain ⟨places, -, hmem, rfl⟩ := h
  rw [List.mem_map]
  constructor
  · rintro ⟨⟨i, j⟩, hp, rfl⟩
    obtain ⟨-, hmax⟩ := (hmem i j).1 hp
    obtain ⟨before, w, after, rfl, rfl, rfl⟩ := exists_cut (Nat.le_of_lt hmax.1.lt) hmax.1.le
    obtain ⟨hw, hbefore, hafter⟩ := isMaximalRun_cut.1 hmax
    rw [extract_cut]
    exact ⟨hw, before, after, rfl, hbefore, hafter⟩
  · rintro ⟨hw, before, after, rfl, hbefore, hafter⟩
    have hmax := isMaximalRun_cut.2 ⟨hw, hbefore, hafter⟩
    exact ⟨_, (hmem _ _).2 ⟨Nat.zero_le _, hmax⟩, extract_cut⟩

section tokens

variable {s t : String}

theorem runsFrom_tokens (s : String) : RunsFrom s.toList 0 ((tokens s).map String.toList) := by
  have hwords : (tokens s).map String.toList = wordsFrom [] s.toList := by
    rw [tokens, List.map_map]
    simp
  rw [hwords]
  exact @runsFrom_wordsFrom [] s.toList [] (by simp [EndsInSpace]) (List.forall_mem_nil _)

theorem hasToken_iff_standsAlone :
    hasToken s t = true ↔ IsWord t.toList ∧ StandsAlone t.toList s.toList := by
  rw [hasToken_iff, ← (runsFrom_tokens s).mem_iff]
  exact (List.mem_map_of_injective fun _ _ => String.toList_inj.1).symm

end tokens

end MarkupTree.Text
