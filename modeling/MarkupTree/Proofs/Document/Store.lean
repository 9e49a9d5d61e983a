import MarkupTree.Document.Content
import MarkupTree.Proofs.Forest
import Mathlib.Data.List.Perm.Subperm

/-!
# Slots in use and slots that wait

The skeleton of a document says of every slot its generation and whether a node is in it. Handles
are live or stale by the skeleton alone, and the stack of reclaimed slots and the number of nodes
agree with it (`Stored`). Steps that change links or content keep the skeleton; taking a slot into
use and reclaiming one change it at one place.
-/

namespace MarkupTree.Document

variable {d e : Document} {x y : NodeId}

/-- The generation of every slot, and whether a node is in it. -/
def skeleton (d : Document) : Array (UInt32 × Bool) :=
  d.slots.map fun slot => (slot.generation, slot.node?.isSome)

theorem size_skeleton (d : Document) : d.skeleton.size = d.slots.size := Array.size_map

theorem contains_iff_skeleton :
    d.contains x = true ↔ d.skeleton[x.index]? = some (x.generation, true) := by
  simp only [contains, get?, skeleton, Array.getElem?_map]
  cases d.slots[x.index]? with
  | none => simp
  | some slot => by_cases hg : slot.generation = x.generation <;> simp [hg]

theorem exists_slot {node : Node} (h : d.get? x = some node) :
    ∃ slot, d.slots[x.index]? = some slot ∧ slot.generation = x.generation ∧
      slot.node? = some node := by
  unfold get? at h
  split at h
  · rename_i slot hslot
    split at h
    · exact ⟨slot, hslot, ‹_›, h⟩
    · cases h
  · cases h

theorem index_lt_of_contains (h : d.contains x = true) : x.index < d.slots.size := by
  rw [contains_iff_skeleton] at h
  rw [← size_skeleton]
  exact (Array.getElem?_eq_some_iff.1 h).1

/-- Of the handles that share a slot one is live. -/
theorem eq_of_index_eq (hx : d.contains x = true) (hy : d.contains y = true)
    (h : x.index = y.index) : x = y := by
  rw [contains_iff_skeleton] at hx hy
  rw [h, hy, Option.some.injEq, Prod.mk.injEq] at hx
  cases x; cases y; simp_all

/-- Live handles without repetition are no more than there are slots. -/
theorem length_le_size {l : List NodeId} (hnd : l.Nodup) (hl : ∀ x ∈ l, d.contains x = true) :
    l.length ≤ d.slots.size := by
  have hmap : (l.map (·.index)).Nodup :=
    hnd.map_on fun x hx y hy h => eq_of_index_eq (hl x hx) (hl y hy) h
  have hsub : l.map (·.index) ⊆ List.range d.slots.size := by
    intro i hi
    obtain ⟨x, hx, rfl⟩ := List.mem_map.1 hi
    exact List.mem_range.2 (index_lt_of_contains (hl x hx))
  simpa using (List.subperm_of_subset hmap hsub).length_le

theorem get?_eq_none : d.get? x = none ↔ d.contains x = false := by
  simp [contains]

theorem parent?_of_stale (h : ¬ d.contains x = true) : d.parent? x = none := by
  simp [parent?, get?_eq_none.2 (Bool.eq_false_iff.2 h)]

theorem children_of_stale (h : ¬ d.contains x = true) : d.children x = [] := by
  simp [children, get?_eq_none.2 (Bool.eq_false_iff.2 h)]

theorem content?_of_stale (h : ¬ d.contains x = true) : d.content? x = none := by
  simp [content?, get?_eq_none.2 (Bool.eq_false_iff.2 h)]

theorem children_eq_getD (d : Document) (x : NodeId) :
    d.children x = ((d.get? x).map (·.children)).getD [] := by
  rw [children]; cases d.get? x <;> rfl

theorem contains_of_parent? {p : NodeId} (h : d.parent? x = some p) : d.contains x = true := by
  by_contra hx; rw [parent?_of_stale hx] at h; cases h

theorem contains_of_mem_children (h : y ∈ d.children x) : d.contains x = true := by
  by_contra hx; rw [children_of_stale hx] at h; cases h

theorem contains_iff_content? : d.contains x = true ↔ ∃ c, d.content? x = some c := by
  rw [contains, content?, Option.isSome_iff_exists]
  cases d.get? x <;> simp

theorem contains_of_kind? {k : Kind} (h : d.kind? x = some k) : d.contains x = true := by
  rw [kind?, Option.map_eq_some_iff] at h
  obtain ⟨c, hc, -⟩ := h
  exact contains_iff_content?.2 ⟨c, hc⟩

/-- A node is known by its links and its content. -/
theorem get?_eq_some_iff {n : Node} : d.get? x = some n ↔ d.contains x = true ∧
    n = ⟨d.parent? x, d.children x, (d.content? x).getD .document⟩ := by
  simp only [contains, parent?, children, content?]
  cases d.get? x with
  | none => simp
  | some m => simpa using eq_comm

/-! ### Skeletons of the steps -/

theorem skeleton_modify (d : Document) (x : NodeId) (f : Node → Node) :
    (d.modify x f).skeleton = d.skeleton := by
  refine Array.ext_getElem? fun i => ?_
  simp only [skeleton, modify, Array.getElem?_map, Array.getElem?_modify]
  split
  · cases d.slots[i]? with
    | none => rfl
    | some slot =>
      by_cases hg : slot.generation = x.generation <;> simp [hg]
  · rfl

theorem skeleton_release (h : d.contains x = true) :
    (d.release x).skeleton = d.skeleton.setIfInBounds x.index (x.generation + 1, false) := by
  rw [contains_iff_skeleton] at h
  refine Array.ext_getElem? fun i => ?_
  simp only [skeleton, Array.getElem?_map] at h
  obtain ⟨slot, hslot, hg⟩ := Option.map_eq_some_iff.1 h
  simp only [skeleton, release, Array.getElem?_map, Array.getElem?_modify,
    Array.getElem?_setIfInBounds, Array.size_map]
  by_cases hi : x.index = i
  · subst hi
    rw [Prod.mk.injEq] at hg
    have hlt := (Array.getElem?_eq_some_iff.1 hslot).1
    rw [if_pos rfl, if_pos rfl, if_pos hlt, hslot]
    simp [hg.1]
  · simp [hi]

/-- Reclaiming makes one handle stale and leaves all other nodes as they are. -/
theorem get?_release (h : d.contains x = true) (y : NodeId) :
    (d.release x).get? y = if y = x then none else d.get? y := by
  split
  · subst y; exact get?_release_self d x
  · rename_i hne
    by_cases hi : y.index = x.index
    · have hy : ¬ d.contains y = true := fun hy => hne (eq_of_index_eq hy h hi)
      rw [get?_eq_none.2 (Bool.eq_false_iff.2 hy)]
      simp only [get?, release, Array.getElem?_modify, hi]
      cases d.slots[x.index]? <;> simp
    · exact get?_release_of_ne hi d

/-! ### The stack of reclaimed slots and the number of nodes -/

/-- The stack holds the empty slots, each once, and the nodes are counted. -/
structure Stored (d : Document) : Prop where
  nodup_free : d.free.Nodup
  mem_free : ∀ {i}, i ∈ d.free ↔ ∃ g, d.skeleton[i]? = some (g, false)
  live_eq : d.live = d.skeleton.countP (·.2)

theorem Stored.of_eq (h : d.Stored) (hs : e.skeleton = d.skeleton) (hf : e.free = d.free)
    (hl : e.live = d.live) : e.Stored := by
  refine ⟨?_, fun {i} => ?_, ?_⟩
  · rw [hf]; exact h.nodup_free
  · rw [hf, hs]; exact h.mem_free
  · rw [hl, hs]; exact h.live_eq

theorem Stored.modify (h : d.Stored) (x : NodeId) (f : Node → Node) : (d.modify x f).Stored :=
  h.of_eq (skeleton_modify d x f) rfl rfl

theorem Stored.release (h : d.Stored) (hx : d.contains x = true) : (d.release x).Stored := by
  have hsk := skeleton_release hx
  rw [contains_iff_skeleton] at hx
  obtain ⟨hlt, hget⟩ := Array.getElem?_eq_some_iff.1 hx
  refine ⟨?_, fun {i} => ?_, ?_⟩
  · refine List.nodup_cons.2 ⟨fun hmem => ?_, h.nodup_free⟩
    obtain ⟨g, hg⟩ := h.mem_free.1 hmem
    rw [hx] at hg
    cases hg
  · show i ∈ x.index :: d.free ↔ _
    rw [hsk, List.mem_cons, h.mem_free, Array.getElem?_setIfInBounds]
    by_cases hi : x.index = i
    · subst hi; simp [hlt]
    · simp [hi, Ne.symm hi]
  · show d.live - 1 = _
    rw [hsk, Array.setIfInBounds, dif_pos hlt, Array.countP_set hlt, h.live_eq, hget]
    simp

theorem Stored.live_pos (h : d.Stored) (hx : d.contains x = true) : 0 < d.live := by
  rw [contains_iff_skeleton] at hx
  rw [h.live_eq, Array.countP_pos_iff]
  exact ⟨_, Array.mem_of_getElem? hx, rfl⟩

/-- The handles of all nodes are as many as the nodes that are counted. -/
theorem Stored.length_handles (h : d.Stored) : d.handles.length = d.live := by
  have hcount : d.handles.length = (d.slots.toList.zipIdx.map Prod.fst).countP
      fun slot => slot.node?.isSome := by
    rw [handles, List.length_filterMap_eq_countP, List.countP_map]
    congr 1
    funext entry
    obtain ⟨slot, index⟩ := entry
    simp
  rw [hcount, List.zipIdx_map_fst, h.live_eq, skeleton, Array.countP_map, ← Array.countP_toList]
  rfl

theorem nodup_handles (d : Document) : d.handles.Nodup := by
  have hsub : ∀ l : List (Slot × Nat), ((l.filterMap fun entry =>
      entry.1.node?.map fun _ => NodeId.mk entry.2 entry.1.generation).map (·.index)).Sublist
        (l.map Prod.snd) := by
    intro l
    induction l with
    | nil => exact .slnil
    | cons entry l ih =>
      obtain ⟨⟨g, node?⟩, i⟩ := entry
      cases node? with
      | none => exact .cons i ih
      | some node => exact .cons_cons i ih
  refine List.Nodup.of_map (·.index) ((hsub _).nodup ?_)
  rw [List.zipIdx_map_snd]
  exact List.nodup_range' 

/-- Live handles without repetition are no more than the nodes that are counted. -/
theorem Stored.length_le_live (h : d.Stored) {l : List NodeId} (hnd : l.Nodup)
    (hl : ∀ x ∈ l, d.contains x = true) : l.length ≤ d.live := by
  rw [← h.length_handles]
  exact (List.subperm_of_subset hnd fun x hx => mem_handles.2 (hl x hx)).length_le

/-! ### New nodes -/

/-- A slot that waits on the stack is there and empty. -/
theorem Stored.slot_of_mem_free (h : d.Stored) {i : Nat} (hi : i ∈ d.free) :
    ∃ g, d.slots[i]? = some ⟨g, none⟩ := by
  obtain ⟨g, hg⟩ := h.mem_free.1 hi
  simp only [skeleton, Array.getElem?_map] at hg
  obtain ⟨⟨g', node?⟩, hslot, hpair⟩ := Option.map_eq_some_iff.1 hg
  simp only [Prod.mk.injEq, Option.isSome_eq_false_iff, Option.isNone_iff_eq_none] at hpair
  exact ⟨g', by rw [hslot, hpair.2]⟩

theorem alloc_of_free {i : Nat} {free : List Nat} {g : UInt32} (hf : d.free = i :: free)
    (hslot : d.slots[i]? = some ⟨g, none⟩) (c : Content) :
    d.alloc c = ({ slots := d.slots.modify i fun slot => { slot with node? := some (.detached c) },
                   free, live := d.live + 1 }, ⟨i, g⟩) := by
  simp [alloc, hf, hslot]

theorem alloc_of_nil (hf : d.free = []) (c : Content) :
    d.alloc c = ({ d with slots := d.slots.push ⟨0, some (.detached c)⟩, live := d.live + 1 },
                 ⟨d.slots.size, 0⟩) := by
  simp [alloc, hf]

/-- A new node gets a handle that is stale until then. -/
theorem Stored.not_contains_alloc (h : d.Stored) (c : Content) :
    ¬ d.contains (d.alloc c).2 = true := by
  match hf : d.free with
  | i :: free =>
    obtain ⟨g, hslot⟩ := h.slot_of_mem_free (i := i) (by simp [hf])
    simp [alloc_of_free hf hslot, contains, get?, hslot]
  | [] => simp [alloc_of_nil hf, contains, get?]

/-- Nothing but the new node is new. -/
theorem Stored.get?_alloc (h : d.Stored) (c : Content) (y : NodeId) :
    (d.alloc c).1.get? y = if y = (d.alloc c).2 then some (.detached c) else d.get? y := by
  match hf : d.free with
  | i :: free =>
    obtain ⟨g, hslot⟩ := h.slot_of_mem_free (i := i) (by simp [hf])
    rw [alloc_of_free hf hslot]
    by_cases hi : y.index = i
    · subst hi
      by_cases hg : g = y.generation
      · subst hg; simp [get?, Array.getElem?_modify, hslot]
      · have hy : y ≠ ⟨y.index, g⟩ := fun e => hg (congrArg NodeId.generation e).symm
        simp [get?, Array.getElem?_modify, hslot, hg, hy]
    · have hy : y ≠ ⟨i, g⟩ := fun e => hi (congrArg NodeId.index e)
      simp [get?, Array.getElem?_modify, Ne.symm hi, hy]
  | [] =>
    rw [alloc_of_nil hf]
    by_cases hi : y.index = d.slots.size
    · by_cases hg : y.generation = 0
      · have hy : y = ⟨d.slots.size, 0⟩ := by cases y; simp_all
        subst hy; simp [get?]
      · have hy : y ≠ ⟨d.slots.size, 0⟩ := fun e => hg (congrArg NodeId.generation e)
        simp [get?, hi, hy, Ne.symm hg]
    · have hy : y ≠ ⟨d.slots.size, 0⟩ := fun e => hi (congrArg NodeId.index e)
      simp [get?, Array.getElem?_push, hi, hy]

theorem Stored.alloc (h : d.Stored) (c : Content) : (d.alloc c).1.Stored := by
  match hf : d.free with
  | i :: free =>
    obtain ⟨g, hslot⟩ := h.slot_of_mem_free (i := i) (by simp [hf])
    obtain ⟨hlt, hget⟩ := Array.getElem?_eq_some_iff.1 hslot
    rw [alloc_of_free hf hslot]
    have hsk : skeleton { slots := d.slots.modify i fun slot =>
        { slot with node? := some (.detached c) }, free, live := d.live + 1 } =
        d.skeleton.set i (g, true) (by rwa [size_skeleton]) := by
      refine Array.ext_getElem? fun j => ?_
      simp only [skeleton, Array.getElem?_map, Array.getElem?_modify, Array.getElem?_set]
      by_cases hj : i = j
      · subst hj; simp [hslot]
      · simp [hj]
    have hnd : (i :: free).Nodup := hf ▸ h.nodup_free
    refine ⟨(List.nodup_cons.1 hnd).2, fun {j} => ?_, ?_⟩
    · rw [hsk, Array.getElem?_set]
      have hmem := h.mem_free (i := j)
      rw [hf, List.mem_cons] at hmem
      by_cases hj : i = j
      · subst hj; simpa using (List.nodup_cons.1 hnd).1
      · rw [if_neg hj, ← hmem]; simp [Ne.symm hj]
    · rw [hsk, Array.countP_set, h.live_eq]
      simp [skeleton, hget]
  | [] =>
    rw [alloc_of_nil hf]
    have hsk : skeleton { d with slots := d.slots.push ⟨0, some (.detached c)⟩, live := d.live + 1 } =
        d.skeleton.push (0, true) := by simp [skeleton]
    refine ⟨h.nodup_free, fun {j} => ?_, ?_⟩
    · rw [hsk, h.mem_free, Array.getElem?_push]
      by_cases hj : j = d.skeleton.size
      · subst hj; simp
      · simp [hj]
    · rw [hsk, Array.countP_push_of_pos (by rfl), h.live_eq]

end MarkupTree.Document
