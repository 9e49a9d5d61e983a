import MarkupTree.Proofs.Document.Axes
import MarkupTree.Selector.Match
import Mathlib.Algebra.Group.Nat.Defs

/-!
# Counting in a row

The element children of a node stand in a row, and an element without a parent is a row of its own.
The counting pseudo-classes ask for the place of an element in its row, or among those elements of
the row that have its name, and the pseudo-classes for the first, the last and the only one agree
with them. Texts are not in the row.
-/

namespace MarkupTree

variable {f : Nth} {place : Nat}

/-- No place is so far from the addend that the distance is no word. -/
theorem Nth.toInt_distance (h : place ≤ 2 ^ 62) (b : Int32) :
    (Int64.ofNat place - b.toInt64).toInt = place - b.toInt := by
  have hlow := b.le_toInt
  have hhigh := b.toInt_lt
  rw [Int64.toInt_sub, Int64.toInt_ofNat_of_lt (by omega), Int32.toInt_toInt64,
    Int.bmod_eq_of_le] <;> omega

theorem Nth.distance_ne_minValue (h : place ≤ 2 ^ 62) (b : Int32) :
    Int64.ofNat place - b.toInt64 ≠ Int64.minValue := by
  intro hmin
  have hhigh := b.toInt_lt
  have hvalue : Int64.minValue.toInt = -2 ^ 63 := rfl
  have hdistance := toInt_distance h b
  rw [hmin, hvalue] at hdistance
  omega

/-- The places of a formula, computed in 64-bit words, are those of integer arithmetic. -/
theorem Nth.accepts_iff (h : place ≤ 2 ^ 62) :
    f.accepts place = true ↔ ∃ m : Nat, f.a.toInt * m + f.b.toInt = place := by
  have hzero : f.a.toInt64 = 0 ↔ f.a.toInt = 0 := by
    rw [← Int64.toInt_inj, Int32.toInt_toInt64]
    rfl
  unfold accepts
  by_cases ha : f.a.toInt = 0
  · rw [if_pos (hzero.2 ha), decide_eq_true_eq, ← Int64.toInt_inj,
      Int64.toInt_ofNat_of_lt (by omega), Int32.toInt_toInt64, ha]
    simp [eq_comm]
  · -- Only the least word divided by `-1` overflows, and no distance is that far below zero.
    rw [if_neg (mt hzero.1 ha), Bool.and_eq_true, decide_eq_true_eq, decide_eq_true_eq,
      ← Int64.toInt_inj, Int64.le_iff_toInt_le, Int64.toInt_mod,
      Int64.toInt_div_of_ne_left _ _ (distance_ne_minValue h f.b), toInt_distance h,
      Int32.toInt_toInt64, Int64.toInt_zero]
    constructor
    · rintro ⟨hmod, hdiv⟩
      obtain ⟨q, hq⟩ := Int.dvd_of_tmod_eq_zero hmod
      rw [hq, Int.mul_tdiv_cancel_left _ ha] at hdiv
      refine ⟨q.toNat, ?_⟩
      rw [Int.toNat_of_nonneg hdiv]
      omega
    · rintro ⟨m, hm⟩
      have hq : place - f.b.toInt = f.a.toInt * m := by omega
      rw [hq, Int.mul_tdiv_cancel_left _ ha]
      exact ⟨Int.tmod_eq_zero_of_dvd (Int.dvd_mul_right _ _), Int.natCast_nonneg m⟩

namespace Document

variable {d : Document} {row before after : List NodeId} {e p : NodeId}

/-- The element children of a node in document order, or an element without a parent. -/
inductive IsRow (d : Document) : List NodeId → Prop
  | children (p : NodeId) : IsRow d (d.childElements p)
  | single {e : NodeId} (he : d.isElement e = true) (h : d.parent? e = none) : IsRow d [e]

theorem Linked.exists_isRow (h : d.Linked) (he : d.isElement e = true) :
    ∃ row, d.IsRow row ∧ e ∈ row := by
  cases hp : d.parent? e with
  | none => exact ⟨_, .single he hp, List.mem_singleton_self e⟩
  | some p => exact ⟨_, .children p, List.mem_filter.2 ⟨h.mem_children.2 hp, he⟩⟩

/-- The elements beside an element are those before it and behind it in its row. -/
theorem Linked.beside_of_row (h : d.Linked) (hrow : d.IsRow (before ++ e :: after)) :
    d.previousElements e = before.reverse ∧ d.followingElements e = after := by
  generalize hlist : before ++ e :: after = row at hrow
  cases hrow with
  | children p =>
    have he : e ∈ d.childElements p := hlist ▸ List.mem_append_right _ List.mem_cons_self
    obtain ⟨hmem, helement⟩ := List.mem_filter.1 he
    have hp := h.mem_children.1 hmem
    have hne := h.not_mem_beside hp
    rw [List.mem_append, not_or] at hne
    rw [childElements, h.children_eq hp, List.filter_append, List.filter_cons_of_pos helement]
      at hlist
    obtain ⟨hbefore, -, hafter⟩ := (List.append_cons_inj_of_notMem
      (mt List.mem_of_mem_filter hne.1) (mt List.mem_of_mem_filter hne.2)).1 hlist.symm
    rw [previousElements, followingElements, previousSiblings, List.filter_reverse]
    exact ⟨congrArg _ hbefore, hafter⟩
  | single he hnone =>
    rcases List.append_eq_singleton_iff.1 hlist with ⟨rfl, h⟩ | ⟨-, h⟩
    · cases h
      rw [previousElements, followingElements, previousSiblings, preceding_of_none hnone,
        following_of_none hnone]
      exact ⟨rfl, rfl⟩
    · cases h

theorem Linked.nodup_row (h : d.Linked) (hrow : d.IsRow row) : row.Nodup := by
  cases hrow with
  | children p => exact (h.forest.nodup p).filter _
  | single => exact List.nodup_singleton _

theorem Linked.length_row (h : d.Linked) (hrow : d.IsRow row) : row.length ≤ d.slots.size := by
  refine length_le_size (h.nodup_row hrow) fun x hx => ?_
  cases hrow with
  | children p => exact h.contains_child (List.mem_of_mem_filter hx)
  | single he => exact List.mem_singleton.1 hx ▸ contains_of_isElement he

end Document

/-! ### Families of counting pseudo-classes -/

/-- Pseudo-classes that count the same elements: from the first one, from the last one, and those
that ask for an end. -/
structure Counting where
  fromFirst : Nth → Simple
  fromLast : Nth → Simple
  first : Simple
  last : Simple
  only : Simple

namespace Counting

open Document

variable {c : Counting} {d d' : Document} {e e' : NodeId} {m n : Nat}

/-- The pseudo-classes that count all elements. -/
def ofAll : Counting := ⟨.nthChild, .nthLastChild, .firstChild, .lastChild, .onlyChild⟩

/-- The pseudo-classes that count the elements of one name. -/
def ofType : Counting := ⟨.nthOfType, .nthLastOfType, .firstOfType, .lastOfType, .onlyOfType⟩

def members (c : Counting) (f : Nth) : List Simple :=
  [c.fromFirst f, c.fromLast f, c.first, c.last, c.only]

/-- What the family says of an element with `m` counted elements before it and `n` behind it. -/
structure Answers (c : Counting) (d : Document) (e : NodeId) (m n : Nat) : Prop where
  fromFirst : ∀ f, (c.fromFirst f).holds d e = f.accepts (m + 1)
  fromLast : ∀ f, (c.fromLast f).holds d e = f.accepts (n + 1)
  first : c.first.holds d e = decide (m = 0)
  last : c.last.holds d e = decide (n = 0)
  only : c.only.holds d e = (c.first.holds d e && c.last.holds d e)

/-- The family says the same of elements with as many counted elements on either side. -/
theorem Answers.holds_eq (h : c.Answers d e m n) (h' : c.Answers d' e' m n) {f : Nth} {x : Simple}
    (hx : x ∈ c.members f) : x.holds d e = x.holds d' e' := by
  simp only [members, List.mem_cons, List.not_mem_nil, or_false] at hx
  rcases hx with rfl | rfl | rfl | rfl | rfl
  · rw [h.fromFirst, h'.fromFirst]
  · rw [h.fromLast, h'.fromLast]
  · rw [h.first, h'.first]
  · rw [h.last, h'.last]
  · rw [h.only, h'.only, h.first, h'.first, h.last, h'.last]

/-- What the family says of the entry number `i` of the counted elements, from 0: formulas tell its
place from either end, and asking for an end is asking for the first place. -/
structure Counts (c : Counting) (d : Document) (counted : List NodeId) (i : Nat) (e : NodeId) :
    Prop where
  fromFirst : ∀ f : Nth, (c.fromFirst f).holds d e = true ↔
    ∃ m : Nat, f.a.toInt * m + f.b.toInt = i + 1
  fromLast : ∀ f : Nth, (c.fromLast f).holds d e = true ↔
    ∃ m : Nat, f.a.toInt * m + f.b.toInt = (counted.length : Int) - i
  first : c.first.holds d e = (c.fromFirst ⟨0, 1⟩).holds d e
  last : c.last.holds d e = (c.fromLast ⟨0, 1⟩).holds d e
  only : c.only.holds d e = (c.first.holds d e && c.last.holds d e)

theorem Answers.counts {before after : List NodeId} (h : c.Answers d e before.length after.length)
    (hlen : (before ++ e :: after).length ≤ 2 ^ 62) :
    c.Counts d (before ++ e :: after) before.length e := by
  rw [List.length_append, List.length_cons] at hlen
  have hends : ∀ m, m + 1 ≤ 2 ^ 62 → decide (m = 0) = Nth.accepts ⟨0, 1⟩ (m + 1) := by
    intro m hm
    rw [Bool.eq_iff_iff, decide_eq_true_eq, Nth.accepts_iff hm]
    have hzero : (0 : Int32).toInt = 0 ∧ (1 : Int32).toInt = 1 := ⟨rfl, rfl⟩
    simp only [hzero, Int.zero_mul]
    constructor
    · intro hm
      exact ⟨0, by omega⟩
    · rintro ⟨-, hm⟩
      omega
  refine ⟨fun f => ?_, fun f => ?_, ?_, ?_, h.only⟩
  · rw [h.fromFirst, Nth.accepts_iff (by omega), Int.natCast_add]
    rfl
  · have hrest :
        ((before ++ e :: after).length : Int) - before.length = (after.length + 1 : Nat) := by
      rw [List.length_append, List.length_cons]
      omega
    rw [h.fromLast, Nth.accepts_iff (by omega), hrest]
  · rw [h.first, h.fromFirst, hends _ (by omega)]
  · rw [h.last, h.fromLast, hends _ (by omega)]

end Counting

namespace Document

variable {d d' : Document} {row row' before after : List NodeId} {e e' : NodeId}

theorem isNone_head? (row : List NodeId) : row.head?.isNone = decide (row.length = 0) := by
  cases row with
  | nil => rfl
  | cons => rfl

theorem isEmpty_eq_decide (row : List NodeId) : row.isEmpty = decide (row.length = 0) := by
  cases row with
  | nil => rfl
  | cons => rfl

theorem Linked.answers_ofAll (h : d.Linked) (hrow : d.IsRow (before ++ e :: after)) :
    Counting.ofAll.Answers d e before.length after.length := by
  obtain ⟨hbefore, hafter⟩ := h.beside_of_row hrow
  refine ⟨fun f => ?_, fun f => ?_, ?_, ?_, rfl⟩
  · show f.accepts ((d.previousElements e).length + 1) = _
    rw [hbefore, List.length_reverse]
  · show f.accepts ((d.followingElements e).length + 1) = _
    rw [hafter]
  · show (d.previousElements e).head?.isNone = _
    rw [hbefore, isNone_head?, List.length_reverse]
  · show (d.followingElements e).head?.isNone = _
    rw [hafter, isNone_head?]

/-- The elements of a row that have the name of `e`. -/
def namesakes (d : Document) (row : List NodeId) (e : NodeId) : List NodeId :=
  row.filter fun x => d.name? x == d.name? e

theorem namesakes_append (d : Document) (before : List NodeId) (e : NodeId) (after : List NodeId) :
    d.namesakes (before ++ e :: after) e = d.namesakes before e ++ e :: d.namesakes after e := by
  rw [namesakes, List.filter_append, List.filter_cons_of_pos (by simp)]
  rfl

theorem length_namesakes (d : Document) (row : List NodeId) (e : NodeId) :
    (d.namesakes row e).length = (row.map d.name?).count (d.name? e) := by
  rw [namesakes, List.count_eq_countP, List.countP_map, List.countP_eq_length_filter]
  rfl

theorem Linked.answers_ofType (h : d.Linked) (hrow : d.IsRow (before ++ e :: after)) :
    Counting.ofType.Answers d e (d.namesakes before e).length (d.namesakes after e).length := by
  obtain ⟨hbefore, hafter⟩ := h.beside_of_row hrow
  have hb : d.sameNameBefore e = (d.namesakes before e).reverse := by
    rw [sameNameBefore, hbefore, List.filter_reverse]
    rfl
  have ha : d.sameNameAfter e = d.namesakes after e := by
    rw [sameNameAfter, hafter]
    rfl
  refine ⟨fun f => ?_, fun f => ?_, ?_, ?_, rfl⟩
  · show f.accepts ((d.sameNameBefore e).length + 1) = _
    rw [hb, List.length_reverse]
  · show f.accepts ((d.sameNameAfter e).length + 1) = _
    rw [ha]
  · show (d.sameNameBefore e).isEmpty = _
    rw [hb, isEmpty_eq_decide, List.length_reverse]
  · show (d.sameNameAfter e).isEmpty = _
    rw [ha, isEmpty_eq_decide]

/-- Entry number `i` of a row, from 0, has `i` elements before it. -/
theorem eq_append_of_getElem? {i : Nat} (h : row[i]? = some e) :
    row = row.take i ++ e :: row.drop (i + 1) ∧ (row.take i).length = i := by
  obtain ⟨hlt, rfl⟩ := List.getElem?_eq_some_iff.1 h
  exact ⟨by simp, by simp; omega⟩

/-- Every other entry of a list, from the first one on, is half of them, rounded up. -/
theorem countP_alternate {q : NodeId → Bool} :
    ∀ {row : List NodeId}, (∀ i e, row[i]? = some e → (q e = true ↔ i % 2 = 0)) →
      row.countP q = (row.length + 1) / 2
  | [], _ => rfl
  | [e], h => by
    have he : q e = true := (h 0 e rfl).2 rfl
    simp [he]
  | e :: e' :: row, h => by
    have he : q e = true := (h 0 e rfl).2 rfl
    have he' : ¬ q e' = true := mt (h 1 e' rfl).1 (by decide)
    have hrow := countP_alternate fun i x hx => (h (i + 2) x hx).trans (by omega)
    rw [List.countP_cons_of_pos he, List.countP_cons_of_neg he', hrow, List.length_cons,
      List.length_cons]
    omega

theorem Linked.counts_ofAll (h : d.Linked) (hsize : d.slots.size ≤ 2 ^ 62) (hrow : d.IsRow row)
    {i : Nat} (hi : row[i]? = some e) : Counting.ofAll.Counts d row i e := by
  obtain ⟨hsplit, hlen⟩ := eq_append_of_getElem? hi
  have hcounts := (h.answers_ofAll (hsplit ▸ hrow)).counts
    (hsplit ▸ Nat.le_trans (h.length_row hrow) hsize)
  rwa [← hsplit, hlen] at hcounts

theorem Linked.counts_ofType (h : d.Linked) (hsize : d.slots.size ≤ 2 ^ 62) (hrow : d.IsRow row)
    (he : e ∈ row) :
    Counting.ofType.Counts d (d.namesakes row e) ((d.namesakes row e).idxOf e) e := by
  obtain ⟨before, after, rfl⟩ := List.append_of_mem he
  have hsplit := d.namesakes_append before e after
  have hlen : (d.namesakes (before ++ e :: after) e).length ≤ 2 ^ 62 :=
    Nat.le_trans (List.length_filter_le _ _) (Nat.le_trans (h.length_row hrow) hsize)
  have hbefore : e ∉ d.namesakes before e := by
    have hnd := h.nodup_row hrow
    rw [List.nodup_middle, List.nodup_cons, List.mem_append, not_or] at hnd
    exact mt List.mem_of_mem_filter hnd.1.1
  have hidx : (d.namesakes (before ++ e :: after) e).idxOf e = (d.namesakes before e).length := by
    rw [hsplit, List.idxOf_append_of_notMem hbefore, List.idxOf_cons_self, Nat.add_zero]
  rw [hidx, hsplit]
  exact (h.answers_ofType hrow).counts (hsplit ▸ hlen)

/-- What the counting pseudo-classes say of an entry of a row depends on the names in the row. -/
theorem Linked.holds_eq_of_names (h : d.Linked) (h' : d'.Linked) (hrow : d.IsRow row)
    (hrow' : d'.IsRow row') (hnames : row.map d.name? = row'.map d'.name?) {i : Nat}
    (hi : row[i]? = some e) (hi' : row'[i]? = some e') {f : Nth} {x : Simple}
    (hx : x ∈ Counting.ofAll.members f ++ Counting.ofType.members f) :
    x.holds d e = x.holds d' e' := by
  obtain ⟨hsplit, -⟩ := eq_append_of_getElem? hi
  obtain ⟨hsplit', -⟩ := eq_append_of_getElem? hi'
  have hname : d.name? e = d'.name? e' := by
    have hentry := congrArg (·[i]?) hnames
    simpa [hi, hi'] using hentry
  have hbefore : (row.take i).map d.name? = (row'.take i).map d'.name? := by
    rw [List.map_take, List.map_take, hnames]
  have hafter : (row.drop (i + 1)).map d.name? = (row'.drop (i + 1)).map d'.name? := by
    rw [List.map_drop, List.map_drop, hnames]
  rw [List.mem_append] at hx
  rcases hx with hx | hx
  · have hanswers := h'.answers_ofAll (hsplit' ▸ hrow')
    have hlen : (row'.take i).length = (row.take i).length := by
      simpa using (congrArg List.length hbefore).symm
    have hlen' : (row'.drop (i + 1)).length = (row.drop (i + 1)).length := by
      simpa using (congrArg List.length hafter).symm
    rw [hlen, hlen'] at hanswers
    exact (h.answers_ofAll (hsplit ▸ hrow)).holds_eq hanswers hx
  · have hanswers := h'.answers_ofType (hsplit' ▸ hrow')
    rw [length_namesakes, length_namesakes, ← hbefore, ← hafter, ← hname, ← length_namesakes,
      ← length_namesakes] at hanswers
    exact (h.answers_ofType (hsplit ▸ hrow)).holds_eq hanswers hx

/-- The formula `2n+1` takes every other entry of a row. -/
theorem Linked.holds_odd (h : d.Linked) (hsize : d.slots.size ≤ 2 ^ 62) (hrow : d.IsRow row)
    {i : Nat} (hi : row[i]? = some e) : (Simple.nthChild ⟨2, 1⟩).holds d e = true ↔ i % 2 = 0 := by
  have htwo : (2 : Int32).toInt = 2 ∧ (1 : Int32).toInt = 1 := ⟨rfl, rfl⟩
  have hholds := (h.counts_ofAll hsize hrow hi).fromFirst ⟨2, 1⟩
  simp only [htwo] at hholds
  refine hholds.trans ?_
  constructor
  · rintro ⟨m, hm⟩
    omega
  · intro hi
    exact ⟨i / 2, by omega⟩

/-- Every element stands in a row, and its place there, or among those in the row that have its
name, is what the counting pseudo-classes tell. They tell the same in another row with the same
names, so texts beside the elements do not count. The formula `2n+1` takes half of a row, rounded
up, and those are the elements in odd places. Slots have numbers of 32 bits, so no document comes
near the number of slots from which on 64-bit words do not count right. -/
theorem counting_of_reachable (h : Reachable d) (hsize : d.slots.size ≤ 2 ^ 62) :
    (∀ e, d.isElement e = true → ∃ row, d.IsRow row ∧ e ∈ row) ∧
    ∀ row, d.IsRow row →
      (∀ i e, row[i]? = some e →
        Counting.ofAll.Counts d row i e ∧
        Counting.ofType.Counts d (d.namesakes row e) ((d.namesakes row e).idxOf e) e ∧
        (∀ d' row' e', Reachable d' → d'.IsRow row' → row.map d.name? = row'.map d'.name? →
          row'[i]? = some e' → ∀ f, ∀ x ∈ Counting.ofAll.members f ++ Counting.ofType.members f,
            x.holds d e = x.holds d' e') ∧
        ((Simple.nthChild ⟨2, 1⟩).holds d e = true ↔ (i + 1) % 2 = 1)) ∧
      row.countP ((Simple.nthChild ⟨2, 1⟩).holds d) = (row.length + 1) / 2 := by
  have hlinked := (wellFormed_of_reachable h).linked
  refine ⟨fun e => hlinked.exists_isRow, fun row hrow => ⟨fun i e hi => ⟨?_, ?_, ?_, ?_⟩, ?_⟩⟩
  · exact hlinked.counts_ofAll hsize hrow hi
  · exact hlinked.counts_ofType hsize hrow (List.mem_of_getElem? hi)
  · intro d' row' e' h' hrow' hnames hi' f x hx
    exact hlinked.holds_eq_of_names (wellFormed_of_reachable h').linked hrow hrow' hnames hi hi' hx
  · exact (hlinked.holds_odd hsize hrow hi).trans (by omega)
  · exact countP_alternate fun i e hi => hlinked.holds_odd hsize hrow hi

/-- Texts stand before the first and the second of three elements, two of them of one name. -/
theorem counting_of_reachable_three : ∃ d : Document,
    Reachable d ∧ d.slots.size ≤ 2 ^ 62 ∧ d.children ⟨1, 0⟩ =
        [⟨2, 0⟩, ⟨3, 0⟩, ⟨4, 0⟩, ⟨5, 0⟩, ⟨6, 0⟩] ∧
      Counting.ofAll.Counts d [⟨3, 0⟩, ⟨5, 0⟩, ⟨6, 0⟩] 2 ⟨6, 0⟩ ∧
      Counting.ofType.Counts d [⟨3, 0⟩, ⟨6, 0⟩] 1 ⟨6, 0⟩ ∧
      [⟨3, 0⟩, ⟨5, 0⟩, ⟨6, 0⟩].countP ((Simple.nthChild ⟨2, 1⟩).holds d) = 2 := by
  obtain ⟨d, hd, hsize, hchildren, hrow, hsame⟩ : ∃ d : Document, Reachable d ∧
      d.slots.size ≤ 2 ^ 62 ∧
      d.children ⟨1, 0⟩ = [⟨2, 0⟩, ⟨3, 0⟩, ⟨4, 0⟩, ⟨5, 0⟩, ⟨6, 0⟩] ∧
      d.childElements ⟨1, 0⟩ = [⟨3, 0⟩, ⟨5, 0⟩, ⟨6, 0⟩] ∧
      d.namesakes [⟨3, 0⟩, ⟨5, 0⟩, ⟨6, 0⟩] ⟨6, 0⟩ = [⟨3, 0⟩, ⟨6, 0⟩] := by
    refine ⟨_, @Reachable.ofSignals .default [.startTag "p" [], .text "r", .startTag "b" [],
      .endTag "b", .text "s", .startTag "i" [], .endTag "i", .startTag "b" [], .endTag "b"] _ rfl,
      ?_, ?_, ?_, ?_⟩
    · decide +kernel
    · decide +kernel
    · decide +kernel
    · decide +kernel
  have hisRow : d.IsRow [⟨3, 0⟩, ⟨5, 0⟩, ⟨6, 0⟩] := hrow ▸ .children ⟨1, 0⟩
  obtain ⟨hplaces, hodd⟩ := (counting_of_reachable hd hsize).2 _ hisRow
  obtain ⟨hall, htype, -⟩ := hplaces 2 ⟨6, 0⟩ rfl
  rw [hsame] at htype
  exact ⟨d, hd, hsize, hchildren, hall, htype, hodd⟩

end Document

end MarkupTree
