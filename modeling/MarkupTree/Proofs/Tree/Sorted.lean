import MarkupTree.Proofs.RoundTrip
import MarkupTree.Signal.Canonical

/-!
# Trees with their attributes in order

Trees agree, the order of attributes left aside, just if they become the same tree once the
attributes of every element stand in the order of their names. That no name is repeated is what
makes the comparison, which looks from one side only, go both ways.
-/

namespace MarkupTree

namespace Attribute

variable {as bs : List Attribute}

theorem perm_sorted (as : List Attribute) : (sorted as).Perm as := List.mergeSort_perm as _

theorem nodup_names_sorted (h : (as.map (·.name)).Nodup) :
    ((sorted as).map (·.name)).Nodup :=
  ((perm_sorted as).map _).nodup_iff.2 h

theorem pairwise_sorted (as : List Attribute) :
    (sorted as).Pairwise fun a b => decide (a.name ≤ b.name) = true := by
  refine List.pairwise_mergeSort (fun a b c hab hbc => ?_) (fun a b => ?_) as
  · rw [decide_eq_true_iff] at hab hbc ⊢
    exact String.le_trans hab hbc
  · simpa using String.le_total a.name b.name

/-- In a list where no name is repeated the order of names is the only order. -/
theorem sorted_eq_iff_perm (h : (as.map (·.name)).Nodup) : sorted as = sorted bs ↔ as.Perm bs := by
  constructor
  · intro he
    exact (perm_sorted as).symm.trans (he ▸ perm_sorted bs)
  · intro hp
    have hperm := ((perm_sorted as).trans hp).trans (perm_sorted bs).symm
    refine hperm.eq_of_pairwise (fun a b ha hb hab hba => ?_) (pairwise_sorted as)
      (pairwise_sorted bs)
    rw [decide_eq_true_iff] at hab hba
    exact List.inj_on_of_nodup_map (nodup_names_sorted h) ha (hperm.mem_iff.2 hb)
      (String.le_antisymm hab hba)

end Attribute

namespace Tree

theorem sameAttributes_iff {as bs : List Attribute} (h : (as.map (·.name)).Nodup) :
    sameAttributes as bs = true ↔ Attribute.sorted as = Attribute.sorted bs := by
  rw [Attribute.sorted_eq_iff_perm h, sameAttributes, Bool.and_eq_true, beq_iff_eq,
    List.all_eq_true]
  constructor
  · rintro ⟨hlen, hall⟩
    have hsub : as ⊆ bs := fun a ha => List.contains_iff_mem.1 (hall a ha)
    exact (List.subperm_of_subset (List.Nodup.of_map _ h) hsub).perm_of_length_le
      (Nat.le_of_eq hlen.symm)
  · intro hp
    exact ⟨hp.length_eq, fun a ha => List.contains_iff_mem.2 (hp.mem_iff.1 ha)⟩

mutual

/-- The tree with the attributes of every element in the order of their names. -/
def sorted : Tree → Tree
  | .document ts => .document (sortedList ts)
  | .element name as ts => .element name (Attribute.sorted as) (sortedList ts)
  | .text s => .text s

def sortedList : List Tree → List Tree
  | [] => []
  | t :: ts => t.sorted :: sortedList ts

end

mutual

theorem signals_sorted : ∀ t : Tree, t.sorted.signals = t.signals.map Signal.sortAttributes
  | .document ts => signalsOfList_sortedList ts
  | .element name as ts => by
    rw [sorted, signals, signals, signalsOfList_sortedList ts]
    simp [Signal.sortAttributes]
  | .text s => rfl

theorem signalsOfList_sortedList : ∀ ts : List Tree,
    signalsOfList (sortedList ts) = (signalsOfList ts).map Signal.sortAttributes
  | [] => rfl
  | t :: ts => by
    rw [sortedList, signalsOfList, signalsOfList, List.map_append, signals_sorted t,
      signalsOfList_sortedList ts]

end

mutual

theorem Inner.sorted : ∀ {t : Tree}, t.Inner → t.sorted.Inner
  | .document _, h => h.elim
  | .element _ _ _, h =>
    ⟨⟨h.1.1, Attribute.nodup_names_sorted h.1.2⟩, InnerList.sortedList h.2⟩
  | .text _, _ => trivial

theorem InnerList.sortedList : ∀ {ts : List Tree}, InnerList ts → InnerList (sortedList ts)
  | [], _ => trivial
  | _ :: _, h => ⟨Inner.sorted h.1, InnerList.sortedList h.2⟩

end

mutual

theorem same_iff : ∀ {t u : Tree}, t.Inner → (t.same u = true ↔ t.sorted = u.sorted)
  | .document _, _, ht => ht.elim
  | .element name as ts, .element name' bs us, ht => by
    rw [same, Bool.and_eq_true, Bool.and_eq_true, beq_iff_eq, sameAttributes_iff ht.1.2,
      sameList_iff ht.2, sorted, sorted, element.injEq, and_assoc]
  | .text s, .text s', _ => by simp [same, sorted]
  | .element _ _ _, .text _, _ => iff_of_false Bool.false_ne_true nofun
  | .element _ _ _, .document _, _ => iff_of_false Bool.false_ne_true nofun
  | .text _, .element _ _ _, _ => iff_of_false Bool.false_ne_true nofun
  | .text _, .document _, _ => iff_of_false Bool.false_ne_true nofun

theorem sameList_iff : ∀ {ts us : List Tree}, InnerList ts →
    (sameList ts us = true ↔ sortedList ts = sortedList us)
  | [], [], _ => iff_of_true rfl rfl
  | [], _ :: _, _ => iff_of_false Bool.false_ne_true nofun
  | _ :: _, [], _ => iff_of_false Bool.false_ne_true nofun
  | t :: ts, u :: us, h => by
    rw [sameList, Bool.and_eq_true, same_iff h.1, sameList_iff h.2, sortedList, sortedList,
      List.cons.injEq]

end

end Tree

end MarkupTree
