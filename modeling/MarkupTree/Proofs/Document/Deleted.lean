import MarkupTree.Proofs.Document.Insertions
import MarkupTree.Proofs.Lifetime

/-!
# Deleting a node and creating others

A deletion reclaims the node and the nodes below it and leaves all else as it was. The slots are
stacked so that they come back in post-order: the next creations use the slots of the deleted nodes
again, children from left to right before their parent, each with the next generation.
-/

namespace MarkupTree

/-- The handle of the next node in the same slot. -/
def NodeId.next (x : NodeId) : NodeId := ⟨x.index, x.generation + 1⟩

/-- The call creates a node. -/
def Call.Creates : Call → Prop
  | .edit _ => False
  | _ => True

theorem Call.Creates.cases {c : Call} (hc : c.Creates) (d : Document) :
    ∃ content, c.after d = (d.alloc content).1 ∧ c.issued? d = some (d.alloc content).2 := by
  rcases Call.cases c d with ⟨content, -, hafter, hissued⟩ | ⟨command, rfl⟩
  · exact ⟨content, hafter, hissued⟩
  · exact hc.elim

namespace Document

/-- The handles that the creations of a run return, in order. -/
def issued (d : Document) : List Call → List NodeId
  | [] => []
  | call :: calls => (call.issued? d).toList ++ (call.after d).issued calls

variable {d e : Document} {n x : NodeId}

/-- `e` is `d` without `n` and the nodes below it, and all else is as it was. -/
structure Deleted (d : Document) (n : NodeId) (e : Document) : Prop where
  contains_iff : ∀ x, e.contains x = true ↔ d.contains x = true ∧ x ∉ n :: d.descendants n
  size : e.size + (n :: d.descendants n).length = d.size
  /-- A former parent loses `n` and nothing else. -/
  former : ∀ p, d.parent? n = some p → e.children p = d.others p n
  other_children : ∀ x, x ∉ n :: d.descendants n → d.parent? n ≠ some x →
    e.children x = d.children x
  other_parent? : ∀ x, x ∉ n :: d.descendants n → e.parent? x = d.parent? x
  other_content? : ∀ x, x ∉ n :: d.descendants n → e.content? x = d.content? x
  /-- The slot of every node that is gone counts one more reclamation. -/
  slot : ∀ x, x ∈ n :: d.descendants n → e.skeleton[x.index]? = some (x.generation + 1, false)
  free : e.free = (d.postorder n).map (·.index) ++ d.free

/-! ### The deletion -/

namespace Linked

variable (h : d.Linked)
include h

/-- Taking a node out changes nothing at the node or below it. -/
theorem children_unlink_of_reaches (hx : x ∈ n :: d.descendants n) :
    (d.unlink n).children x = d.children x := by
  rw [h.children_unlink_self]
  exact h.others_of_not fun hn =>
    h.forest.grounded.not_reaches_of_passes (.single hn) (h.mem_cons_descendants.1 hx)

theorem descendants_unlink (n : NodeId) : (d.unlink n).descendants n = d.descendants n :=
  h.descendants_congr (h.unlink n) fun _ => h.children_unlink_of_reaches

theorem postorder_unlink (n : NodeId) : (d.unlink n).postorder n = d.postorder n :=
  h.postorder_congr (h.unlink n) fun _ => h.children_unlink_of_reaches

/-- A slot that is reclaimed is reclaimed once. -/
theorem skeleton_reclaim (hn : d.contains n = true) (hx : x ∈ n :: d.descendants n) :
    (d.reclaim n).skeleton[x.index]? = some (x.generation + 1, false) := by
  exact (Thinned.reclaim d n).slot_of_gone
    (h.contains_of_mem_postorder hn (h.mem_postorder.2 hx))
    fun hx' => ((h.contains_reclaim hn x).1 hx').1 hx

end Linked

theorem delete_deleted (h : d.WellFormed) (he : d.delete n = .ok e) : Deleted d n e := by
  obtain ⟨hn, -, rfl⟩ := delete_eq_ok.1 he
  have hl := h.linked
  have hl' := hl.unlink n
  have hrel := Relinked.unlink d n
  have hn' : (d.unlink n).contains n = true := by rwa [hrel.contains]
  have hbelow := hl.descendants_unlink n
  have hself : ∀ {x}, x ∉ n :: d.descendants n → x ≠ n := fun hx he =>
    hx (List.mem_cons.2 (.inl he))
  refine ⟨fun x => ?_, ?_, fun p hp => ?_, fun x hx hxn => ?_, fun x hx => ?_, fun x hx => ?_,
    fun x hx => ?_, ?_⟩
  · rw [hl'.contains_reclaim hn', hbelow, hrel.contains]
    exact And.comm
  · rw [← hbelow, hl'.size_reclaim (hrel.stored h.stored) hn']
    exact hrel.live
  · have hpn : p ∉ n :: d.descendants n := fun hmem =>
      hl.forest.grounded.not_reaches_of_passes (.single hp) (hl.mem_cons_descendants.1 hmem)
    rw [hl'.children_reclaim hn', hbelow]
    exact (if_neg hpn).trans (hl.children_unlink_self p n)
  · rw [hl'.children_reclaim hn', hbelow]
    exact (if_neg hx).trans ((hl.children_unlink_self x n).trans (hl.others_of_not hxn))
  · rw [hl'.parent?_reclaim hn', hbelow]
    exact (if_neg hx).trans (parent?_unlink_of_ne (hself hx))
  · rw [hl'.content?_reclaim hn', hbelow, if_neg hx, hrel.content?]
  · exact hl'.skeleton_reclaim hn' (hbelow ▸ hx)
  · rw [hl'.free_reclaim hn', hl.postorder_unlink, hrel.free]

/-! ### The creations -/

/-- A creation uses the slot on top of the stack, with the generation that the slot has. -/
theorem Stored.creation (h : d.Stored) {rest : List Nat} (hfree : d.free = x.index :: rest)
    (hslot : d.skeleton[x.index]? = some (x.generation + 1, false)) {c : Call} (hc : c.Creates) :
    c.issued? d = some x.next ∧ (c.after d).Stored ∧ (c.after d).free = rest ∧
      ∀ i, i ≠ x.index → (c.after d).skeleton[i]? = d.skeleton[i]? := by
  obtain ⟨content, hafter, hissued⟩ := hc.cases d
  obtain ⟨g, hempty⟩ := h.slot_of_mem_free (hfree ▸ List.mem_cons_self)
  have halloc := alloc_of_free hfree hempty content
  rw [skeleton, Array.getElem?_map, hempty] at hslot
  cases hslot
  have hskeleton := (h.skeleton_alloc content).2
  rw [hissued, hafter]
  refine ⟨by rw [halloc]; rfl, h.alloc content, by rw [halloc], fun i hi => ?_⟩
  rw [hskeleton, halloc]
  exact if_neg hi

/-- Creations use one slot after the other. -/
theorem Stored.issued_eq : ∀ {order : List NodeId} {rest : List Nat} {calls : List Call}
    {d : Document}, d.Stored → d.free = order.map (·.index) ++ rest →
    (∀ x ∈ order, d.skeleton[x.index]? = some (x.generation + 1, false)) →
    (∀ c ∈ calls, c.Creates) → calls.length = order.length →
    d.issued calls = order.map NodeId.next
  | [], _, calls, _, _, _, _, _, hlen => by
    rw [List.eq_nil_of_length_eq_zero hlen]
    rfl
  | x :: order, rest, [], _, _, _, _, _, hlen => by cases hlen
  | x :: order, rest, c :: calls, d, h, hfree, hslots, hcalls, hlen => by
    obtain ⟨hissued, hstored, hfree', hother⟩ :=
      h.creation hfree (hslots x List.mem_cons_self) (hcalls c List.mem_cons_self)
    have hnd := h.nodup_free
    rw [hfree] at hnd
    have hx : ∀ y ∈ order, y.index ≠ x.index := fun y hy he =>
      (List.nodup_cons.1 hnd).1 (List.mem_append_left _ (List.mem_map.2 ⟨y, hy, he⟩))
    have hrest := hstored.issued_eq hfree'
      (fun y hy => (hother _ (hx y hy)).trans (hslots y (List.mem_cons_of_mem x hy)))
      (fun c' hc' => hcalls c' (List.mem_cons_of_mem c hc')) (Nat.succ.inj hlen)
    rw [issued, hissued, hrest]
    rfl

/-- A deletion takes away the node and the nodes below it and nothing else, each once. The creations
that follow it, as many as there were nodes, use the slots of these nodes again in post-order. -/
theorem delete_then_create (h : Reachable d) (hn : d.contains n = true) (hroot : n ≠ .root) :
    ∃ e, d.delete n = .ok e ∧ Deleted d n e ∧ (d.postorder n).Perm (n :: d.descendants n) ∧
      ∀ creations : List Call, (∀ c ∈ creations, c.Creates) →
        creations.length = (n :: d.descendants n).length →
          e.issued creations = (d.postorder n).map NodeId.next := by
  have hw := wellFormed_of_reachable h
  obtain ⟨e, he⟩ : ∃ e, d.delete n = .ok e := ⟨_, delete_eq_ok.2 ⟨hn, hroot, rfl⟩⟩
  have hdeleted := delete_deleted hw he
  have hperm := hw.linked.postorder_perm n
  refine ⟨e, he, hdeleted, hperm, fun creations hcreates hlen => ?_⟩
  refine (Command.wellFormed_apply hw (c := .delete n) he).stored.issued_eq hdeleted.free
    (fun x hx => hdeleted.slot x (hperm.mem_iff.1 hx)) hcreates ?_
  rw [hlen, hperm.length_eq]

/-- An element with two children, of which the first has a child of its own. -/
theorem delete_then_create_four : ∃ d e : Document,
    d.contains ⟨1, 0⟩ = true ∧ (⟨1, 0⟩ : NodeId) ≠ .root ∧
      d.delete ⟨1, 0⟩ = .ok e ∧ Deleted d ⟨1, 0⟩ e ∧
        e.issued [.createText "a", .createElement "b" [], .createDocument, .createText "c"] =
          [⟨3, 1⟩, ⟨2, 1⟩, ⟨4, 1⟩, ⟨1, 1⟩] := by
  obtain ⟨d, hd, hlive, horder, hbelow⟩ : ∃ d : Document, Reachable d ∧
      d.contains ⟨1, 0⟩ = true ∧ d.postorder ⟨1, 0⟩ = [⟨3, 0⟩, ⟨2, 0⟩, ⟨4, 0⟩, ⟨1, 0⟩] ∧
        (d.descendants ⟨1, 0⟩).length = 3 := by
    refine ⟨_, @Reachable.ofSignals .default [.startTag "a" [], .startTag "b" [], .text "s",
      .endTag "b", .text "t", .endTag "a"] _ rfl, ?_, ?_, ?_⟩
    · decide +kernel
    · decide +kernel
    · decide +kernel
  have hroot : (⟨1, 0⟩ : NodeId) ≠ .root := by decide
  obtain ⟨e, he, hdeleted, -, hissued⟩ := delete_then_create hd hlive hroot
  refine ⟨d, e, hlive, hroot, he, hdeleted, ?_⟩
  rw [hissued _ (by simp [Call.Creates]) (by simp [hbelow]), horder]
  rfl

end Document

end MarkupTree
