import MarkupTree.Proofs.Signal.Decoding
import MarkupTree.Proofs.Tree.Sorted

/-!
# Canonical signals of a tree

Joining texts and dropping empty ones can be done in a tree, below every node for itself, or in its
signals, where no text meets one from another level because a tag stands between them. So trees are
the same after normalization just if they are of one kind and their canonical signals are the same.
-/

namespace MarkupTree

theorem Signal.map_mapText_id (signals : List Signal) : signals.map (mapText id) = signals := by
  have hid : mapText id = id := by
    funext s
    cases s <;> rfl
  rw [hid, List.map_id]

namespace Tree

variable {t u : Tree} {ts us : List Tree} {f : String → String}

mutual

/-- The tree with `f` applied to every text and texts side by side joined. -/
def joined (f : String → String) : Tree → Tree
  | .document ts => .document (joinedList f ts)
  | .element name as ts => .element name as (joinedList f ts)
  | .text s => .text (f s)

def joinedList (f : String → String) : List Tree → List Tree
  | [] => []
  | t :: ts =>
    match t with
    | .text s => joinText (f s) (joinedList f ts)
    | t => t.joined f :: joinedList f ts

end

/-! ### Joining in a tree and in its signals -/

theorem InnerList.joinText (s : String) : ∀ {ts : List Tree}, InnerList ts →
    InnerList (joinText s ts)
  | [], _ => ⟨trivial, trivial⟩
  | .text _ :: _, h => ⟨trivial, h.2⟩
  | .element _ _ _ :: _, h => ⟨trivial, h⟩
  | .document _ :: _, h => h.1.elim

mutual

theorem Inner.joined (f : String → String) : ∀ {t : Tree}, t.Inner → (t.joined f).Inner
  | .document _, h => h.elim
  | .element _ _ _, h => ⟨h.1, InnerList.joinedList f h.2⟩
  | .text _, _ => trivial

theorem InnerList.joinedList (f : String → String) : ∀ {ts : List Tree}, InnerList ts →
    InnerList (joinedList f ts)
  | [], _ => trivial
  | .text s :: _, h => (InnerList.joinedList f h.2).joinText (f s)
  | .element _ _ _ :: _, h => ⟨Inner.joined f h.1, InnerList.joinedList f h.2⟩
  | .document _ :: _, h => h.1.elim

end

theorem joinTexts_of_closes {rest : List Signal} (h : Closes rest) :
    Closes (Signal.joinTexts rest) := by
  cases h with
  | nil => exact .nil
  | endTag name rest => exact .endTag name _

theorem joinText_signalsOfList (s : String) (ht : InnerList ts) {rest : List Signal}
    (hr : Closes rest) :
    Signal.joinText s (signalsOfList ts ++ rest) = signalsOfList (joinText s ts) ++ rest := by
  match ts, ht with
  | [], _ => cases hr <;> rfl
  | .text run :: ts, _ => rfl
  | .element name as cs :: ts, _ => rfl
  | .document _ :: _, ht => exact ht.1.elim

/-- Texts are joined among the children of every element for themselves: behind the children stands
an end tag. -/
theorem joinTexts_signalsOfList (f : String → String) : ∀ {ts : List Tree} (rest : List Signal),
    InnerList ts → Closes rest →
    Signal.joinTexts ((signalsOfList ts).map (Signal.mapText f) ++ rest) =
      signalsOfList (joinedList f ts) ++ Signal.joinTexts rest
  | [], _, _, _ => rfl
  | .text s :: ts, rest, ht, hr => by
    show Signal.joinText (f s)
      (Signal.joinTexts ((signalsOfList ts).map (Signal.mapText f) ++ rest)) = _
    rw [joinTexts_signalsOfList f rest ht.2 hr,
      joinText_signalsOfList (f s) (ht.2.joinedList f) (joinTexts_of_closes hr)]
    rfl
  | .element name as cs :: ts, rest, ht, hr => by
    have hcs := joinTexts_signalsOfList f
      (.endTag name :: ((signalsOfList ts).map (Signal.mapText f) ++ rest)) ht.1.2
      (.endTag name _)
    have hts := joinTexts_signalsOfList f rest ht.2 hr
    simp only [signalsOfList, signals, joinedList, joined, List.map_cons, List.map_append,
      List.cons_append, List.append_assoc, List.nil_append, Signal.mapText,
      Signal.joinTexts] at hcs hts ⊢
    rw [hcs, hts]
  | .document _ :: _, _, ht, _ => ht.1.elim

/-! ### Normal trees -/

theorem pruneList_eq : ∀ ts : List Tree, pruneList ts = dropEmpty (ts.map prune)
  | [] => rfl
  | .text s :: ts => by
    have ih := pruneList_eq ts
    by_cases hs : s.isEmpty = true <;> simp_all [pruneList, isEmptyText, prune, dropEmpty]
  | .element name as cs :: ts => by
    have ih := pruneList_eq ts
    simp_all [pruneList, isEmptyText, prune, dropEmpty]
  | .document cs :: ts => by
    have ih := pruneList_eq ts
    simp_all [pruneList, isEmptyText, prune, dropEmpty]

theorem map_prune_joinText (s : String) : ∀ ts : List Tree,
    (joinText s ts).map prune = joinText s (ts.map prune)
  | [] => rfl
  | .text _ :: _ => rfl
  | .element _ _ _ :: _ => rfl
  | .document _ :: _ => rfl

mutual

/-- A tree is made normal by joining its texts first and dropping the empty ones then. -/
theorem normal_eq (f : String → String) : ∀ t : Tree, t.normal f = (t.joined f).prune
  | .document ts => by rw [normal, joined, prune, pruneList_eq, normalList_eq f ts]
  | .element name as ts => by rw [normal, joined, prune, pruneList_eq, normalList_eq f ts]
  | .text s => rfl

theorem normalList_eq (f : String → String) : ∀ ts : List Tree,
    normalList f ts = (joinedList f ts).map prune
  | [] => rfl
  | .text s :: ts => by
    rw [joinedList, map_prune_joinText, ← normalList_eq f ts]
    rfl
  | .element name as cs :: ts => by
    have hcs := normal_eq f (.element name as cs)
    rw [normal] at hcs
    rw [joinedList, List.map_cons, ← normalList_eq f ts, ← hcs, normalList_element]
    · exact nofun
  | .document cs :: ts => by
    have hcs := normal_eq f (.document cs)
    rw [normal] at hcs
    rw [joinedList, List.map_cons, ← normalList_eq f ts, ← hcs, normalList_document]
    · exact nofun

end

mutual

theorem Inner.prune : ∀ {t : Tree}, t.Inner → t.prune.Inner
  | .document _, h => h.elim
  | .element _ _ _, h => ⟨h.1, InnerList.pruneList h.2⟩
  | .text _, _ => trivial

theorem InnerList.pruneList : ∀ {ts : List Tree}, InnerList ts → InnerList (pruneList ts)
  | [], _ => trivial
  | t :: ts, h => by
    by_cases ht : t.isEmptyText = true
    · rw [pruneList_cons_of_isEmptyText ht]
      exact InnerList.pruneList h.2
    · rw [pruneList_cons_of_not ht]
      exact ⟨Inner.prune h.1, InnerList.pruneList h.2⟩

end

/-- What a tree is compared by: its normal branches, with sorted attributes. -/
def key (f : String → String) (ts : List Tree) : List Tree :=
  sortedList (pruneList (joinedList f ts))

theorem innerList_key (h : InnerList ts) : InnerList (key f ts) :=
  ((h.joinedList f).pruneList).sortedList

theorem canonical_signalsOfList (h : InnerList ts) :
    Signal.canonical ((signalsOfList ts).map (Signal.mapText f)) = signalsOfList (key f ts) := by
  have hjoin := joinTexts_signalsOfList f [] h .nil
  rw [List.append_nil, Signal.joinTexts, List.append_nil] at hjoin
  rw [Signal.canonical, hjoin, ← signalsOfList_pruneList, ← signalsOfList_sortedList]
  rfl

theorem canonical_eq_iff (ht : InnerList ts) (hu : InnerList us) :
    Signal.canonical ((signalsOfList ts).map (Signal.mapText f)) =
      Signal.canonical ((signalsOfList us).map (Signal.mapText f)) ↔ key f ts = key f us := by
  rw [canonical_signalsOfList ht, canonical_signalsOfList hu]
  exact ⟨signalsOfList_injective (innerList_key ht) (innerList_key hu), congrArg signalsOfList⟩

def kind : Tree → Kind
  | .document _ => .document
  | .element _ _ _ => .element
  | .text _ => .text

/-- Trees of one kind agree just if their keys do. -/
theorem same_normal_iff (ht : InnerList t.branches) :
    (t.normal f).same (u.normal f) = true ↔
      t.kind = u.kind ∧ key f t.branches = key f u.branches := by
  by_cases hkind : t.kind = u.kind
  · rw [and_iff_right hkind]
    cases t with
    | document ts =>
      cases u with
      | element name as us => cases hkind
      | text s => cases hkind
      | document us =>
        have ht : InnerList ts := ht
        rw [normal_eq, normal_eq]
        show sameList (pruneList (joinedList f ts)) (pruneList (joinedList f us)) = true ↔ _
        rw [sameList_iff (ht.joinedList f).pruneList]
        exact .rfl
    | element name as ts =>
      cases u with
      | document us => cases hkind
      | text s => cases hkind
      | element name' bs us =>
        rw [normal_eq, normal_eq, same_iff ((ht.1.joined f).prune)]
        show _ ↔ [sorted _] = [sorted _]
        rw [List.cons.injEq, and_iff_left rfl]
    | text s =>
      cases u with
      | document us => cases hkind
      | element name as us => cases hkind
      | text s' =>
        show (f s == f s') = true ↔ _
        rw [beq_iff_eq]
        by_cases hs : (f s).isEmpty = true <;> by_cases hs' : (f s').isEmpty = true <;>
          simp_all [key, branches, joinedList, joinText, pruneList, isEmptyText, sortedList,
            prune, sorted, String.isEmpty_iff]
  · refine iff_of_false ?_ fun h => hkind h.1
    cases t <;> cases u <;> first | exact absurd rfl hkind | exact Bool.false_ne_true

theorem same_normal_iff_canonical (ht : InnerList t.branches) (hu : InnerList u.branches) :
    (t.normal f).same (u.normal f) = true ↔ t.kind = u.kind ∧
      Signal.canonical (t.signals.map (Signal.mapText f)) =
        Signal.canonical (u.signals.map (Signal.mapText f)) := by
  rw [same_normal_iff ht, ← signalsOfList_branches t, ← signalsOfList_branches u,
    canonical_eq_iff ht hu]

end Tree

end MarkupTree
