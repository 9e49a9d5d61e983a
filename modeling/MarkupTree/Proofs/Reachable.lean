import MarkupTree.Proofs.Builder
import MarkupTree.Proofs.Document.Commands
import Mathlib.Logic.Function.Iterate

/-!
# Reachable documents

The documents that can be made: a new one or one that signals describe, and what creations and
edits make of it, whether the edits are done or refused. All of them are well-formed.
-/

namespace MarkupTree

/-- What an edit in place leaves behind, however it ends. -/
def Command.after (d : Document) (c : Command) : Document :=
  match c.inPlace d with
  | .ok _ e => e
  | .error _ e => e

inductive Reachable : Document → Prop
  | new : Reachable .new
  | ofSignals {config : Config} {signals : List Signal} {d : Document}
      (h : Document.ofSignals config signals = .ok d) : Reachable d
  | createElement {d : Document} (h : Reachable d) (name : String) (attributes : List Attribute) :
      Reachable (d.createElement name attributes).1
  | createText {d : Document} (h : Reachable d) (text : String) : Reachable (d.createText text).1
  | createDocument {d : Document} (h : Reachable d) : Reachable d.createDocument.1
  | edit {d : Document} (h : Reachable d) (c : Command) : Reachable (c.after d)

namespace Document

variable {d e : Document} {x : NodeId}

/-- A refused edit changes nothing, an edit that is done gives a well-formed document. -/
theorem WellFormed.after (h : d.WellFormed) (c : Command) : (c.after d).WellFormed := by
  have hc := Command.carries h c
  unfold Command.after
  cases ha : c.apply d with
  | ok e =>
    rw [ha] at hc
    rw [hc.1]
    exact hc.2
  | error cause =>
    rw [ha] at hc
    have hrun : c.inPlace d = .error (.refused cause) d := hc
    rw [hrun]
    exact h

theorem wellFormed_of_reachable (h : Reachable d) : d.WellFormed := by
  induction h with
  | new => exact wellFormed_new
  | ofSignals h => exact wellFormed_ofSignals h
  | createElement _ name as ih => exact ih.alloc (spelled_element name as)
  | createText _ text ih => exact ih.alloc trivial
  | createDocument _ ih => exact ih.alloc trivial
  | edit _ c ih => exact ih.after c

theorem reachable_apply (h : Reachable d) {c : Command} (he : c.apply d = .ok e) :
    Reachable e := by
  have hc := Command.carries (wellFormed_of_reachable h) c
  rw [he] at hc
  have hafter : c.after d = e := by rw [Command.after, hc.1]
  exact hafter ▸ h.edit c

/-- All that the links, the slots and the names of a document promise. -/
structure Consistent (d : Document) : Prop where
  root_live : d.contains .root = true
  root_kind : d.kind? .root = some .document
  root_top : d.parent? .root = none
  parent_iff : ∀ x p, d.contains x = true →
    (d.parent? x = some p ↔ d.contains p = true ∧ x ∈ d.children p)
  child_once : ∀ x p, d.parent? x = some p → (d.children p).count x = 1
  children_live : ∀ p, ∀ x ∈ d.children p, d.contains x = true
  children_nodup : ∀ p, (d.children p).Nodup
  /-- Going up often enough from a node leads out of the document. -/
  chain_finite : ∀ x, ∃ n, (fun y? : Option NodeId => y?.bind d.parent?)^[n] (some x) = none
  acyclic : ∀ x, ¬ Passes d.parent? x x
  text_leaf : ∀ x, d.kind? x = some .text → d.children x = []
  document_top : ∀ x, d.kind? x = some .document → d.parent? x = none
  free_nodup : d.free.Nodup
  mem_free : ∀ i, i ∈ d.free ↔ ∃ slot, d.slots[i]? = some slot ∧ slot.node? = none
  size_eq : d.size = d.slots.countP (·.node?.isSome)
  isEmpty_iff : d.isEmpty = true ↔ ∀ x, d.contains x = true → x = .root
  attributes_nodup : ∀ x, ((d.attributes x).map (·.name)).Nodup
  name_lower : ∀ x name, d.name? x = some name → Text.lower name = name

theorem Linked.exists_iterate_eq_none (h : d.Linked) (x : NodeId) :
    ∃ n, (fun y? : Option NodeId => y?.bind d.parent?)^[n] (some x) = none := by
  induction x using h.up_induction with
  | step x ih =>
    cases hp : d.parent? x with
    | none => exact ⟨1, hp⟩
    | some p =>
      obtain ⟨n, hn⟩ := ih p hp
      refine ⟨n + 1, ?_⟩
      rw [Function.iterate_succ_apply]
      show (fun y? : Option NodeId => y?.bind d.parent?)^[n] (d.parent? x) = none
      rw [hp, hn]

theorem WellFormed.isEmpty_iff (h : d.WellFormed) :
    d.isEmpty = true ↔ ∀ x, d.contains x = true → x = .root := by
  have hroot := mem_handles.2 h.contains_root
  rw [isEmpty, decide_eq_true_iff, ← h.stored.length_handles]
  constructor
  · intro hle x hx
    obtain ⟨y, hy⟩ : ∃ y, d.handles = [y] :=
      List.length_eq_one_iff.1 (Nat.le_antisymm hle (List.length_pos_of_mem hroot))
    have hx := mem_handles.2 hx
    rw [hy, List.mem_singleton] at hx hroot
    rw [hx, hroot]
  · intro hall
    have hsub : d.handles ⊆ [.root] := fun x hx =>
      List.mem_singleton.2 (hall x (mem_handles.1 hx))
    exact (List.subperm_of_subset (nodup_handles d) hsub).length_le

theorem WellFormed.consistent (h : d.WellFormed) : d.Consistent where
  root_live := h.contains_root
  root_kind := kind?_eq_some_document.2 h.root
  root_top := h.parent?_root
  parent_iff x p _ := by
    rw [h.linked.mem_children]
    exact ⟨fun hp => ⟨h.linked.contains_parent hp, hp⟩, fun hp => hp.2⟩
  child_once x p hp :=
    List.count_eq_one_of_mem (h.linked.forest.nodup p) (h.linked.mem_children.2 hp)
  children_live _ _ hx := h.linked.contains_child hx
  children_nodup := h.linked.forest.nodup
  chain_finite := h.linked.exists_iterate_eq_none
  acyclic := h.linked.forest.grounded.not_passes_self
  text_leaf _ hx := h.linked.text (isText_iff.2 hx)
  document_top _ hx := h.linked.document (isDocument_iff.2 hx)
  free_nodup := h.stored.nodup_free
  mem_free i := by
    rw [h.stored.mem_free]
    simp only [skeleton, Array.getElem?_map, Option.map_eq_some_iff, Prod.mk.injEq,
      Option.isSome_eq_false_iff, Option.isNone_iff_eq_none]
    constructor
    · rintro ⟨_, slot, hs, _, hn⟩
      exact ⟨slot, hs, hn⟩
    · rintro ⟨slot, hs, hn⟩
      exact ⟨_, slot, hs, rfl, hn⟩
  size_eq := by
    rw [size, h.stored.live_eq, skeleton, Array.countP_map]
    rfl
  isEmpty_iff := h.isEmpty_iff
  attributes_nodup x := by
    rw [attributes]
    cases hc : d.content? x with
    | none => exact .nil
    | some c =>
      cases c with
      | element name as => exact (h.spelled hc).2
      | document => exact .nil
      | text => exact .nil
  name_lower x name hn := by
    obtain ⟨c, hc, hname⟩ := Option.bind_eq_some_iff.1 hn
    cases c with
    | element tag as =>
      cases hname
      exact (h.spelled hc).1
    | document => cases hname
    | text => cases hname

/-- However a document was made, and whichever edits of it were refused, it keeps its promises. -/
theorem consistent_of_reachable (h : Reachable d) : d.Consistent :=
  (wellFormed_of_reachable h).consistent

/-- An element is moved out of its parent, and the parent is deleted with the text left in it. To
put that text somewhere is refused then, and no promise is broken. -/
theorem consistent_of_refused : ∃ d₀ d₁ d₂ : Document, Reachable d₀ ∧
    d₀.children ⟨3, 0⟩ = [⟨4, 0⟩, ⟨5, 0⟩] ∧
      (Command.append ⟨6, 0⟩ ⟨5, 0⟩).apply d₀ = .ok d₁ ∧
        (Command.delete ⟨3, 0⟩).apply d₁ = .ok d₂ ∧
          d₂.children ⟨1, 0⟩ = [⟨2, 0⟩, ⟨6, 0⟩] ∧ d₂.children ⟨6, 0⟩ = [⟨5, 0⟩] ∧
            d₂.free = [4, 3] ∧
              (Command.append ⟨1, 0⟩ ⟨4, 0⟩).apply d₂ = .error (.stale ⟨4, 0⟩) ∧
                ((Command.append ⟨1, 0⟩ ⟨4, 0⟩).after d₂).Consistent := by
  have h₀ : Reachable _ := @Reachable.ofSignals .default [.startTag "div" [], .text "a",
    .startTag "p" [], .text "b", .startTag "b" [], .endTag "b", .endTag "p",
    .startTag "p" [], .endTag "p", .endTag "div"] _ rfl
  have h₁ := reachable_apply h₀ (c := .append ⟨6, 0⟩ ⟨5, 0⟩) rfl
  have h₂ := reachable_apply h₁ (c := .delete ⟨3, 0⟩) rfl
  refine ⟨_, _, _, h₀, ?_, rfl, rfl, ?_, ?_, ?_, ?_,
    consistent_of_reachable (h₂.edit (.append ⟨1, 0⟩ ⟨4, 0⟩))⟩
  · decide +kernel
  · decide +kernel
  · decide +kernel
  · decide +kernel
  · decide +kernel

/-- An edit that the document allows runs to its end in place; any other is refused and leaves the
document as it was. No run faults otherwise. -/
theorem inPlace_all_or_nothing (h : Reachable d) (c : Command) :
    (c.Allowed d ∧ ∃ e, c.apply d = .ok e ∧ c.inPlace d = .ok () e) ∨
      ¬ c.Allowed d ∧ ∃ cause, c.apply d = .error cause ∧
        c.inPlace d = .error (.refused cause) d := by
  have hw := wellFormed_of_reachable h
  have hcar := Command.carries hw c
  rw [← Command.apply_eq_ok_iff hw c]
  cases ha : c.apply d with
  | ok e =>
    rw [ha] at hcar
    exact .inl ⟨⟨e, rfl⟩, e, rfl, hcar.1⟩
  | error cause =>
    rw [ha] at hcar
    refine .inr ⟨?_, cause, rfl, hcar⟩
    rintro ⟨e, he⟩
    cases he

/-- The items of a list change places and leave their texts where they were. To put the list into an
item of its own is refused. -/
theorem inPlace_all_or_nothing_items : ∃ d e : Document, Reachable d ∧
    d.children ⟨1, 0⟩ = [⟨2, 0⟩, ⟨4, 0⟩] ∧ d.children ⟨2, 0⟩ = [⟨3, 0⟩] ∧
      ((Command.swap ⟨2, 0⟩ ⟨4, 0⟩).Allowed d ∧
        (Command.swap ⟨2, 0⟩ ⟨4, 0⟩).inPlace d = .ok () e ∧
          e.children ⟨1, 0⟩ = [⟨4, 0⟩, ⟨2, 0⟩] ∧ e.children ⟨4, 0⟩ = [⟨3, 0⟩]) ∧
      ¬ (Command.append ⟨2, 0⟩ ⟨1, 0⟩).Allowed d ∧
        (Command.append ⟨2, 0⟩ ⟨1, 0⟩).inPlace d =
          .error (.refused (.invalid (.ownSubtree ⟨1, 0⟩))) d := by
  obtain ⟨d, e, hd, hlist, hitem, hswap, hlist', hitem', happend⟩ : ∃ d e : Document, Reachable d ∧
      d.children ⟨1, 0⟩ = [⟨2, 0⟩, ⟨4, 0⟩] ∧ d.children ⟨2, 0⟩ = [⟨3, 0⟩] ∧
        (Command.swap ⟨2, 0⟩ ⟨4, 0⟩).apply d = .ok e ∧
          e.children ⟨1, 0⟩ = [⟨4, 0⟩, ⟨2, 0⟩] ∧ e.children ⟨4, 0⟩ = [⟨3, 0⟩] ∧
            (Command.append ⟨2, 0⟩ ⟨1, 0⟩).apply d = .error (.invalid (.ownSubtree ⟨1, 0⟩)) := by
    refine ⟨_, _, @Reachable.ofSignals .default [.startTag "ul" [], .startTag "li" [], .text "a",
      .endTag "li", .startTag "li" [], .text "b", .endTag "li", .endTag "ul"] _ rfl,
      ?_, ?_, rfl, ?_, ?_, ?_⟩
    · decide +kernel
    · decide +kernel
    · decide +kernel
    · decide +kernel
    · decide +kernel
  refine ⟨d, e, hd, hlist, hitem, ?_, ?_⟩
  · rcases inPlace_all_or_nothing hd (.swap ⟨2, 0⟩ ⟨4, 0⟩) with
      ⟨hallowed, e', he', hrun⟩ | ⟨_, cause, hcause, _⟩
    · rw [hswap, Except.ok.injEq] at he'
      exact ⟨hallowed, he' ▸ hrun, hlist', hitem'⟩
    · rw [hswap] at hcause
      cases hcause
  · rcases inPlace_all_or_nothing hd (.append ⟨2, 0⟩ ⟨1, 0⟩) with
      ⟨_, e', he', _⟩ | ⟨hdenied, cause, hcause, hrun⟩
    · rw [happend] at he'
      cases he'
    · rw [happend, Except.error.injEq] at hcause
      exact ⟨hdenied, hcause ▸ hrun⟩

end Document

end MarkupTree
