import MarkupTree.Proofs.Document.Frames

/-!
# What edits do to slots

An edit takes no slot into use. It leaves a slot as it is, or it reclaims the node in it, whereby
the generation goes up by one (`Thinned`). Only three edits reclaim nodes at all.
-/

namespace MarkupTree.Document

variable {d e f : Document} {x : NodeId}

/-- `e` is `d` after some of its nodes were reclaimed, as far as the slots tell. -/
def Thinned (d e : Document) : Prop := ∀ i : Nat, e.skeleton[i]? = d.skeleton[i]? ∨
  ∃ g, d.skeleton[i]? = some (g, true) ∧ e.skeleton[i]? = some (g + 1, false)

namespace Thinned

theorem of_skeleton (h : e.skeleton = d.skeleton) : Thinned d e := fun i => .inl (by rw [h])

theorem refl (d : Document) : Thinned d d := of_skeleton rfl

theorem trans (h : Thinned d e) (h' : Thinned e f) : Thinned d f := by
  intro i
  rcases h i with hde | ⟨g, hd, he⟩
  · rcases h' i with hef | ⟨g, he, hf⟩
    · exact .inl (hef.trans hde)
    · exact .inr ⟨g, hde ▸ he, hf⟩
  · rcases h' i with hef | ⟨g', he', -⟩
    · exact .inr ⟨g, hd, hef.trans he⟩
    · -- An empty slot is not reclaimed again.
      rw [he] at he'
      cases he'

theorem relinked (h : Relinked d e) : Thinned d e := of_skeleton h.skeleton

theorem setContent (d : Document) (x : NodeId) (c : Content) : Thinned d (d.setContent x c) :=
  of_skeleton (skeleton_modify ..)

theorem release (hx : d.contains x = true) : Thinned d (d.release x) := by
  intro i
  rw [skeleton_release hx, Array.getElem?_setIfInBounds]
  rw [contains_iff_skeleton] at hx
  split
  · rename_i hi
    subst hi
    rw [if_pos (Array.getElem?_eq_some_iff.1 hx).1]
    exact .inr ⟨x.generation, hx, rfl⟩
  · exact .inl rfl

theorem reclaimList : ∀ (fuel : Nat) (work : List NodeId) (d : Document),
    Thinned d (d.reclaimList fuel work)
  | 0, _, d => refl d
  | _ + 1, [], d => refl d
  | fuel + 1, x :: rest, d => by
    rw [Document.reclaimList]
    split
    · rename_i node hnode
      exact (release (contains_iff.2 ⟨node, hnode⟩)).trans (reclaimList fuel _ _)
    · exact reclaimList fuel rest d

theorem reclaim (d : Document) (x : NodeId) : Thinned d (d.reclaim x) := reclaimList _ _ d

theorem mergeTexts : ∀ (work kept : List NodeId) (d : Document), Thinned d (d.mergeTexts kept work).1
  | [], _, d => refl d
  | c :: rest, kept, d => by
    rw [Document.mergeTexts]
    split
    · exact mergeTexts rest _ d
    · split
      · exact (reclaim d c).trans (mergeTexts rest _ _)
      · split
        · exact mergeTexts rest _ d
        · split
          · exact ((setContent d _ _).trans (reclaim _ c)).trans (mergeTexts rest _ _)
          · exact mergeTexts rest _ d

theorem normalizeOne (d : Document) (x : NodeId) : Thinned d (d.normalizeOne x) :=
  ((relinked (.orphan d x)).trans (mergeTexts _ _ _)).trans (relinked (.adopt ..))

theorem foldl {β : Type} {g : Document → β → Document} (hg : ∀ d b, Thinned d (g d b)) :
    ∀ (l : List β) (d : Document), Thinned d (l.foldl g d)
  | [], d => refl d
  | b :: l, d => (hg d b).trans (foldl hg l (g d b))

/-- What is live was live before. -/
theorem contains (h : Thinned d e) (hx : e.contains x = true) : d.contains x = true := by
  rw [contains_iff_skeleton] at hx ⊢
  rcases h x.index with hsame | ⟨g, -, he⟩
  · rwa [← hsame]
  · rw [hx] at he
    exact nomatch (Prod.mk.inj (Option.some.inj he)).2

/-- A slot whose node is gone was reclaimed once. -/
theorem slot_of_gone (h : Thinned d e) (hx : d.contains x = true) (hgone : ¬ e.contains x = true) :
    e.skeleton[x.index]? = some (x.generation + 1, false) := by
  rw [contains_iff_skeleton] at hx hgone
  rcases h x.index with hsame | ⟨g, hd, he⟩
  · exact absurd (hsame.trans hx) hgone
  · rw [hx] at hd
    cases hd
    exact he

/-- A slot whose node stays is as it was. -/
theorem slot_of_kept (h : Thinned d e) {i : Nat}
    (hkept : ∀ x, x.index = i → d.contains x = true → e.contains x = true) :
    e.skeleton[i]? = d.skeleton[i]? := by
  rcases h i with hsame | ⟨g, hd, he⟩
  · exact hsame
  · have hlive := hkept ⟨i, g⟩ rfl (contains_iff_skeleton.2 hd)
    rw [contains_iff_skeleton, he] at hlive
    exact nomatch (Prod.mk.inj (Option.some.inj hlive)).2

end Thinned

end MarkupTree.Document

namespace MarkupTree.Command

open Document

variable {d e : Document} {c : Command}

/-- All other edits leave every slot as it is, but for what is in its node. -/
theorem skeleton_apply (h : d.WellFormed) (hc : ¬ c.Reclaiming) (he : c.apply d = .ok e) :
    e.skeleton = d.skeleton := by
  cases hx : c.reworded? with
  | none => exact (relinked_apply h.linked hc hx he).skeleton
  | some x => exact (reworded_apply h hx he).skeleton

theorem thinned_apply (h : d.WellFormed) (he : c.apply d = .ok e) : Thinned d e := by
  cases c with
  | delete x =>
    obtain ⟨-, -, heq⟩ := delete_eq_ok.1 he
    rw [heq]
    exact (Thinned.relinked (.unlink d x)).trans (.reclaim _ x)
  | replace n new =>
    obtain ⟨p, -, -, ⟨-, heq⟩ | ⟨-, -, heq⟩⟩ := (replace_eq_ok h.linked).1 he
    · rw [heq]
      exact .refl d
    · rw [heq]
      exact (Thinned.relinked (((Relinked.unlink d new).trans (.unlink _ n)).trans
        (.linkAt _ p _ new))).trans (.reclaim _ n)
  | normalize x =>
    obtain ⟨-, heq⟩ := normalize_eq_ok.1 he
    rw [heq]
    exact .foldl .normalizeOne _ d
  | _ => exact .of_skeleton (skeleton_apply h id he)

end MarkupTree.Command
