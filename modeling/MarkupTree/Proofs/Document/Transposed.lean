import MarkupTree.Proofs.Reachable

/-!
# Exchanging two elements as a transposition

An exchange of two elements renames: the links of the new document are the old links with the two
handles exchanged wherever one of them stands, while each handle keeps its content. There is one
such document only. So the order of the two does not matter, and a second exchange undoes the first.
-/

namespace MarkupTree

namespace Document

variable {d e f : Document} {a b p q : NodeId}

/-- The links of `d` with `a` and `b` exchanged are those of `e`, and all else is as it was. -/
structure Transposed (d : Document) (a b : NodeId) (e : Document) : Prop where
  parent? : ∀ x, e.parent? (Equiv.swap a b x) = (d.parent? x).map (Equiv.swap a b)
  children : ∀ x, e.children (Equiv.swap a b x) = (d.children x).map (Equiv.swap a b)
  relinked : Relinked d e

namespace Transposed

theorem comm (h : Transposed d a b e) : Transposed d b a e := by
  obtain ⟨hup, hdown, hrel⟩ := h
  rw [Equiv.swap_comm] at hup hdown
  exact ⟨hup, hdown, hrel⟩

theorem symm (h : Transposed d a b e) : Transposed e a b d := by
  refine ⟨fun x => ?_, fun x => ?_, h.relinked.symm⟩
  · have hup := h.parent? (Equiv.swap a b x)
    rw [Equiv.swap_apply_self] at hup
    rw [hup, Option.map_map, ← Equiv.coe_trans, Equiv.swap_swap, Equiv.coe_refl,
      Option.map_id_apply]
  · have hdown := h.children (Equiv.swap a b x)
    rw [Equiv.swap_apply_self] at hdown
    rw [hdown, List.map_map, ← Equiv.coe_trans, Equiv.swap_swap, Equiv.coe_refl, List.map_id]

theorem unique (h : Transposed d a b e) (h' : Transposed d a b f) : f = e := by
  refine (h.relinked.symm.trans h'.relinked).eq_of_links ?_ ?_
  · funext x
    rw [← Equiv.swap_apply_self a b x, h.parent?, h'.parent?]
  · funext x
    rw [← Equiv.swap_apply_self a b x, h.children, h'.children]

/-- What stands above the one now stands above the other. -/
theorem exists_parent?_left (h : Transposed d a b e) (hq : d.parent? b = some q) :
    ∃ p, e.parent? a = some p := by
  have hup := h.parent? b
  rw [Equiv.swap_apply_right, hq] at hup
  exact ⟨_, hup⟩

theorem not_reaches (h : Transposed d a b e) (hba : ¬ Reaches d.parent? b a) :
    ¬ Reaches e.parent? a b := by
  intro hab
  have hba' := hab.rename h.symm.parent?
  rw [Equiv.swap_apply_left, Equiv.swap_apply_right] at hba'
  exact hba hba'

/-- Two elements that were exchanged can be exchanged again. -/
theorem allowed (h : Transposed d a b e) (hd : (Command.swap a b).Allowed d) :
    (Command.swap a b).Allowed e := by
  obtain ⟨⟨ha, p, hp⟩, ⟨hb, q, hq⟩, happart⟩ := hd
  refine ⟨⟨?_, h.exists_parent?_left hq⟩, ⟨?_, h.comm.exists_parent?_left hp⟩, ?_⟩
  · rw [h.relinked.isElement]; exact ha
  · rw [h.relinked.isElement]; exact hb
  · exact happart.imp_right fun ⟨hab, hba⟩ => ⟨h.not_reaches hba, h.comm.not_reaches hab⟩

end Transposed

theorem transposed_of_swap (h : d.Linked) (he : d.swap a b = .ok e) : Transposed d a b e := by
  obtain ⟨-, -, p, q, hp, hq, ⟨rfl, rfl⟩ | ⟨hab, -, -, rfl⟩⟩ := (swap_eq_ok h).1 he
  · exact ⟨fun x => by simp, fun x => by simp, .refl e⟩
  · refine ⟨fun x => ?_, fun x => ?_, (relinked_cross d a b p q).trans (relinked_exchange _ a b)⟩
    · simp only [parent?_swapped h hp hq hab, Equiv.swap_apply_self]
    · simp only [children_swapped h hp hq hab, Equiv.swap_apply_self]

/-- Where an exchange is allowed it gives the document with the two handles exchanged. -/
theorem Transposed.swap_eq (h : Transposed d a b e) (hd : d.WellFormed)
    (hallowed : (Command.swap a b).Allowed d) : d.swap a b = .ok e := by
  obtain ⟨f, hf⟩ := (Command.apply_eq_ok_iff hd (.swap a b)).2 hallowed
  rw [← h.unique (transposed_of_swap hd.linked hf)]
  exact hf

/-- An exchange of two elements exchanges their handles in all links and changes nothing else. It
does not matter which of the two is named first, and the same exchange leads back. -/
theorem swap_transposes (h : Reachable d) (he : d.swap a b = .ok e) :
    Transposed d a b e ∧ d.swap b a = .ok e ∧ e.swap a b = .ok d := by
  have hw := wellFormed_of_reachable h
  have htrans := transposed_of_swap hw.linked he
  have hallowed := (Command.apply_eq_ok_iff hw (.swap a b)).1 ⟨e, he⟩
  have hcomm : (Command.swap b a).Allowed d :=
    ⟨hallowed.2.1, hallowed.1, hallowed.2.2.imp Eq.symm And.symm⟩
  exact ⟨htrans, htrans.comm.swap_eq hw hcomm,
    htrans.symm.swap_eq (Command.wellFormed_apply hw (c := .swap a b) he) (htrans.allowed hallowed)⟩

/-- Two neighbours, each with a text below it. -/
theorem swap_transposes_neighbours : ∃ d e : Document,
    d.children .root = [⟨1, 0⟩, ⟨3, 0⟩] ∧ d.children ⟨1, 0⟩ = [⟨2, 0⟩] ∧
      d.children ⟨3, 0⟩ = [⟨4, 0⟩] ∧ d.swap ⟨1, 0⟩ ⟨3, 0⟩ = .ok e ∧
        e.children .root = [⟨3, 0⟩, ⟨1, 0⟩] ∧ e.children ⟨3, 0⟩ = [⟨2, 0⟩] ∧
          d.swap ⟨3, 0⟩ ⟨1, 0⟩ = .ok e ∧ e.swap ⟨1, 0⟩ ⟨3, 0⟩ = .ok d := by
  obtain ⟨d, hd, htop, ha, hb, e, he⟩ : ∃ d : Document, Reachable d ∧
      d.children .root = [⟨1, 0⟩, ⟨3, 0⟩] ∧ d.children ⟨1, 0⟩ = [⟨2, 0⟩] ∧
        d.children ⟨3, 0⟩ = [⟨4, 0⟩] ∧ ∃ e, d.swap ⟨1, 0⟩ ⟨3, 0⟩ = .ok e := by
    refine ⟨_, @Reachable.ofSignals .default [.startTag "a" [], .text "s", .endTag "a",
      .startTag "b" [], .text "t", .endTag "b"] _ rfl, ?_, ?_, ?_, _, rfl⟩
    · decide +kernel
    · decide +kernel
    · decide +kernel
  obtain ⟨htrans, hback, hagain⟩ := swap_transposes hd he
  have htop' := htrans.children .root
  have hb' := htrans.children ⟨1, 0⟩
  rw [htop] at htop'
  rw [ha] at hb'
  exact ⟨d, e, htop, ha, hb, he, htop', hb', hback, hagain⟩

end Document

end MarkupTree
