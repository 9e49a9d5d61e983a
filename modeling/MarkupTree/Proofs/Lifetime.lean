import MarkupTree.Proofs.Document.Thinned
import MarkupTree.Proofs.Document.Walk
import MarkupTree.Proofs.Reachable
import MarkupTree.Selector.Selection

/-!
# The life of a handle

A run is a list of calls on a document, creations and edits in any order, each done or refused. The
generation of a slot goes up by one whenever the slot is reclaimed and at no other time, so it
counts the reclamations of the slot until it wraps around. A handle that was reclaimed therefore
stays stale, and no creation returns it again, before its slot was reclaimed as often as there are
generations.
-/

namespace MarkupTree

/-- A creation or an edit. -/
inductive Call where
  | createElement (name : String) (attributes : List Attribute)
  | createText (text : String)
  | createDocument
  | edit (command : Command)

namespace Call

/-- What a call leaves behind, whether it is done or refused. -/
def after (d : Document) : Call → Document
  | .createElement name attributes => (d.createElement name attributes).1
  | .createText text => (d.createText text).1
  | .createDocument => d.createDocument.1
  | .edit command => command.after d

/-- The handle that a creation returns. -/
def issued? (d : Document) : Call → Option NodeId
  | .createElement name attributes => some (d.createElement name attributes).2
  | .createText text => some (d.createText text).2
  | .createDocument => some d.createDocument.2
  | .edit _ => none

/-- A call creates a node or is an edit. -/
theorem cases (c : Call) (d : Document) :
    (∃ content : Content, content.Spelled ∧ c.after d = (d.alloc content).1 ∧
      c.issued? d = some (d.alloc content).2) ∨
    ∃ command, c = .edit command := by
  cases c with
  | createElement name as => exact .inl ⟨_, spelled_element name as, rfl, rfl⟩
  | createText text => exact .inl ⟨.text text, trivial, rfl, rfl⟩
  | createDocument => exact .inl ⟨.document, trivial, rfl, rfl⟩
  | edit command => exact .inr ⟨command, rfl⟩

end Call

namespace Document

/-- A node is in the slot. -/
def occupied (d : Document) (index : Nat) : Bool := (d.slots[index]?.bind (·.node?)).isSome

/-- The call finds a node in the slot and leaves the slot empty. -/
def reclaims (d : Document) (index : Nat) (call : Call) : Bool :=
  d.occupied index && !(call.after d).occupied index

/-- The document after a run. -/
def run (d : Document) (calls : List Call) : Document := calls.foldl Call.after d

/-- How often a slot is reclaimed in a run. -/
def reclamations (d : Document) (index : Nat) : List Call → Nat
  | [] => 0
  | call :: calls =>
    (if d.reclaims index call then 1 else 0) + (call.after d).reclamations index calls

variable {d : Document} {x : NodeId} {c : Call} {i : Nat} {g : UInt32} {b : Bool}

/-! ### Slots in a run -/

theorem occupied_iff_skeleton : d.occupied i = true ↔ ∃ g, d.skeleton[i]? = some (g, true) := by
  simp only [occupied, skeleton, Array.getElem?_map]
  cases d.slots[i]? with
  | none => simp
  | some slot => simp

theorem occupied_eq (h : d.skeleton[i]? = some (g, b)) : d.occupied i = b := by
  rw [Bool.eq_iff_iff, occupied_iff_skeleton, h]
  simp

/-! ### One call -/

theorem WellFormed.afterCall (h : d.WellFormed) (c : Call) : (c.after d).WellFormed := by
  rcases c.cases d with ⟨content, hcontent, hafter, -⟩ | ⟨command, rfl⟩
  · rw [hafter]
    exact h.alloc hcontent
  · exact h.after command

/-- An edit that is done makes a document, a refused one leaves the document as it was. -/
theorem after_edit (h : d.WellFormed) (command : Command) :
    Call.after d (.edit command) = d ∨ command.apply d = .ok (Call.after d (.edit command)) := by
  have hrun := Command.carries h command
  show command.after d = d ∨ command.apply d = .ok (command.after d)
  unfold Command.after
  cases happly : command.apply d with
  | ok e =>
    rw [happly] at hrun
    rw [hrun.1]
    exact .inr rfl
  | error cause =>
    rw [happly] at hrun
    have hrefused : command.inPlace d = .error (.refused cause) d := hrun
    rw [hrefused]
    exact .inl rfl

/-- A new node is put into an empty slot, of which its handle has the generation, or into a new
slot. -/
theorem Stored.skeleton_alloc (h : d.Stored) (content : Content) :
    (d.skeleton[(d.alloc content).2.index]? = some ((d.alloc content).2.generation, false) ∨
      d.skeleton[(d.alloc content).2.index]? = none) ∧
    ∀ i, (d.alloc content).1.skeleton[i]? = if i = (d.alloc content).2.index then
      some ((d.alloc content).2.generation, true) else d.skeleton[i]? := by
  match hf : d.free with
  | j :: free =>
    obtain ⟨g, hslot⟩ := h.slot_of_mem_free (i := j) (by simp [hf])
    rw [alloc_of_free hf hslot]
    refine ⟨.inl (by simp [skeleton, hslot]), fun i => ?_⟩
    simp only [skeleton, Array.getElem?_map, Array.getElem?_modify]
    by_cases hi : i = j
    · simp [hi, hslot]
    · simp [hi, Ne.symm hi]
  | [] =>
    rw [alloc_of_nil hf]
    refine ⟨.inr (by simp [skeleton]), fun i => ?_⟩
    simp only [skeleton, Array.map_push, Array.getElem?_push, Array.size_map]
    rfl

theorem reclaims_eq {g' : UInt32} {b' : Bool} (hi : d.skeleton[i]? = some (g, b))
    (hi' : (c.after d).skeleton[i]? = some (g', b')) : d.reclaims i c = (b && !b') := by
  rw [reclaims, occupied_eq hi, occupied_eq hi']

/-- The generation of a slot goes up if the call reclaims the slot. If it does not, the generation
stays, and a node in the slot does too. -/
theorem WellFormed.skeleton_after (h : d.WellFormed) (hi : d.skeleton[i]? = some (g, b))
    (c : Call) :
    d.reclaims i c = true ∧ (c.after d).skeleton[i]? = some (g + 1, false) ∨
      d.reclaims i c = false ∧
        ∃ b', (c.after d).skeleton[i]? = some (g, b') ∧ (b = true → b' = true) := by
  have kept : ∀ {b'}, (c.after d).skeleton[i]? = some (g, b') → (b = true → b' = true) →
      d.reclaims i c = false ∧
        ∃ b', (c.after d).skeleton[i]? = some (g, b') ∧ (b = true → b' = true) := by
    intro b' hi' hb
    refine ⟨?_, b', hi', hb⟩
    rw [reclaims_eq hi hi']
    cases b
    · rfl
    · rw [hb rfl]
      rfl
  rcases c.cases d with ⟨content, -, hafter, -⟩ | ⟨command, rfl⟩
  · obtain ⟨hold, hnew⟩ := h.stored.skeleton_alloc content
    rw [← hafter] at hnew
    refine .inr ?_
    by_cases hx : i = (d.alloc content).2.index
    · -- The slot was empty and gets the new node.
      rw [← hx, hi] at hold
      rcases hold with hold | hold
      · cases hold
        exact kept ((hnew i).trans (if_pos hx)) (fun _ => rfl)
      · cases hold
    · exact kept ((hnew i).trans ((if_neg hx).trans hi)) id
  · rcases after_edit h command with hsame | happly
    · exact .inr (kept (by rw [hsame]; exact hi) id)
    · rcases Command.thinned_apply h happly i with hsame | ⟨g', hd, he⟩
      · exact .inr (kept (hsame.trans hi) id)
      · rw [hi] at hd
        cases hd
        exact .inl ⟨reclaims_eq hi he, he⟩

/-! ### A run -/

theorem WellFormed.run (h : d.WellFormed) (calls : List Call) : (d.run calls).WellFormed := by
  induction calls generalizing d with
  | nil => exact h
  | cons c calls ih => exact ih (h.afterCall c)

theorem reclamations_append (d : Document) (i : Nat) (calls later : List Call) :
    d.reclamations i (calls ++ later) =
      d.reclamations i calls + (d.run calls).reclamations i later := by
  induction calls generalizing d with
  | nil => simp [reclamations, run]
  | cons c calls ih =>
    rw [List.cons_append, reclamations, reclamations, ih]
    exact (Nat.add_assoc ..).symm

/-- The generation of a slot counts its reclamations, and the node in it stays until the first. -/
theorem WellFormed.skeleton_run (h : d.WellFormed) (hi : d.skeleton[i]? = some (g, b))
    (calls : List Call) :
    ∃ b', (d.run calls).skeleton[i]? = some (g + UInt32.ofNat (d.reclamations i calls), b') ∧
      (d.reclamations i calls = 0 → b = true → b' = true) := by
  induction calls generalizing d g b with
  | nil => exact ⟨b, by simpa [reclamations, Document.run] using hi, fun _ => id⟩
  | cons c calls ih =>
    rw [reclamations]
    rcases h.skeleton_after hi c with ⟨hc, hi'⟩ | ⟨hc, b', hi', hb⟩
    · obtain ⟨b'', hrun, -⟩ := ih (h.afterCall c) hi'
      refine ⟨b'', ?_, fun hn => ?_⟩
      · rw [if_pos hc, UInt32.ofNat_add, ← UInt32.add_assoc]
        exact hrun
      · rw [if_pos hc] at hn
        omega
    · obtain ⟨b'', hrun, hstay⟩ := ih (h.afterCall c) hi'
      rw [hc, if_neg Bool.false_ne_true, Nat.zero_add]
      exact ⟨b'', hrun, fun hn hbt => hstay hn (hb hbt)⟩

/-- As often as there are generations, or a multiple of that. -/
theorem dvd_of_generation_eq {n : Nat} (h : g + UInt32.ofNat n = g) : UInt32.size ∣ n := by
  have hn : UInt32.ofNat n = 0 := by simpa using h
  rw [← UInt32.toNat_inj, UInt32.toNat_ofNat'] at hn
  exact Nat.dvd_of_mod_eq_zero hn

/-- A live node is reclaimed in a run if it is not live at its end. -/
theorem WellFormed.reclamations_pos (h : d.WellFormed) (hx : d.contains x = true)
    {calls : List Call} (hgone : (d.run calls).contains x = false) :
    0 < d.reclamations x.index calls := by
  obtain ⟨b, hrun, hstay⟩ := h.skeleton_run (contains_iff_skeleton.1 hx) calls
  by_contra hn
  have hn : d.reclamations x.index calls = 0 := by omega
  rw [hn, hstay hn rfl] at hrun
  rw [Bool.eq_false_iff, ne_eq, contains_iff_skeleton] at hgone
  exact hgone (by simpa using hrun)

/-- A node that was reclaimed stays stale until the generations of its slot are used up. -/
theorem WellFormed.stale_of_reclamations (h : d.WellFormed) (hx : d.contains x = true)
    {calls : List Call} (hpos : 0 < d.reclamations x.index calls)
    (hlt : d.reclamations x.index calls < UInt32.size) : ¬ (d.run calls).contains x = true := by
  intro hlive
  obtain ⟨b, hrun, -⟩ := h.skeleton_run (contains_iff_skeleton.1 hx) calls
  rw [contains_iff_skeleton, hrun, Option.some.injEq, Prod.mk.injEq] at hlive
  exact absurd (Nat.le_of_dvd hpos (dvd_of_generation_eq hlive.1)) (by omega)

/-! ### Handles that name nothing -/

/-- A handle that names nothing: no node is found by it, no question to the document has it in its
answer, and every edit that is given it is refused. -/
structure Gone (d : Document) (x : NodeId) : Prop where
  get? : d.get? x = none
  contains : d.contains x = false
  handles : x ∉ d.handles
  parent : ∀ y, d.parent? y ≠ some x
  children : ∀ y, x ∉ d.children y
  ancestors : ∀ y, x ∉ d.ancestors y
  walk : ∀ y axis steps, x ∉ (d.walk y axis steps).items
  selection : ∀ alternatives y, x ∉ (d.selection alternatives y).items
  refused : ∀ c : Command, x ∈ c.arguments →
    ∃ cause, c.apply d = .error cause ∧ c.inPlace d = .error (.refused cause) d

theorem WellFormed.gone (h : d.WellFormed) (hx : ¬ d.contains x = true) : d.Gone x where
  get? := get?_eq_none.2 (Bool.eq_false_iff.2 hx)
  contains := Bool.eq_false_iff.2 hx
  handles hmem := hx (mem_handles.1 hmem)
  parent _ hp := hx (h.linked.contains_parent hp)
  children _ hc := hx (h.linked.contains_child hc)
  ancestors _ ha := hx (h.linked.contains_of_passes (h.linked.mem_ancestors.1 ha))
  walk _ _ _ hw := hx (h.linked.contains_of_mem_walk hw)
  selection alternatives y hs := by
    rw [items_selection] at hs
    exact hx (contains_of_mem_select hs)
  refused _ hc := Command.refused_of_stale h hc hx

/-! ### The life of a handle -/

theorem issued_eq (h : c.issued? d = some x) :
    ∃ content, c.after d = (d.alloc content).1 ∧ x = (d.alloc content).2 := by
  rcases c.cases d with ⟨content, -, hafter, hissued⟩ | ⟨command, rfl⟩
  · rw [hissued, Option.some.injEq] at h
    exact ⟨content, hafter, h.symm⟩
  · cases h

/-- The handle that a creation returns was not live before, and is after it. -/
theorem WellFormed.contains_issued (h : d.WellFormed) (hc : c.issued? d = some x) :
    d.contains x = false ∧ (c.after d).contains x = true := by
  obtain ⟨content, hafter, rfl⟩ := issued_eq hc
  refine ⟨Bool.eq_false_iff.2 (h.stored.not_contains_alloc content), ?_⟩
  rw [hafter]
  exact (contains_alloc h.stored content _).2 (.inl rfl)

/-- The slot of the handle that a creation returns was empty, and had its generation. -/
theorem WellFormed.skeleton_issued (h : d.WellFormed) (hc : c.issued? d = some x) {g : UInt32}
    {b : Bool} (hi : d.skeleton[x.index]? = some (g, b)) : x.generation = g ∧ b = false := by
  obtain ⟨content, -, rfl⟩ := issued_eq hc
  rcases (h.stored.skeleton_alloc content).1 with hold | hold
  · rw [hi] at hold
    cases hold
    exact ⟨rfl, rfl⟩
  · rw [hi] at hold
    cases hold

theorem WellFormed.reclamations_of_reissued (h : d.WellFormed) (hx : d.contains x = true)
    {calls : List Call} (hc : c.issued? (d.run calls) = some x) :
    UInt32.size ≤ d.reclamations x.index calls := by
  obtain ⟨b, hrun, -⟩ := h.skeleton_run (contains_iff_skeleton.1 hx) calls
  obtain ⟨hg, -⟩ := (h.run calls).skeleton_issued hc hrun
  have hpos := h.reclamations_pos hx ((h.run calls).contains_issued hc).1
  exact Nat.le_of_dvd hpos (dvd_of_generation_eq hg.symm)

/-- Only three edits make a handle stale. -/
theorem WellFormed.reclaiming_of_stale (h : d.WellFormed) (hx : d.contains x = true)
    (hgone : (c.after d).contains x = false) : ∃ e, c = .edit e ∧ e.Reclaiming := by
  rw [Bool.eq_false_iff, ne_eq] at hgone
  rcases c.cases d with ⟨content, -, hafter, -⟩ | ⟨command, rfl⟩
  · rw [hafter] at hgone
    exact absurd ((contains_alloc h.stored content x).2 (.inr hx)) hgone
  · refine ⟨command, rfl, ?_⟩
    by_contra hc
    rcases after_edit h command with hsame | happly
    · rw [hsame] at hgone
      exact hgone hx
    · rw [contains_iff_skeleton, Command.skeleton_apply h hc happly] at hgone
      exact hgone (contains_iff_skeleton.1 hx)

/-- No stale handle comes back to life, whatever is created and edited in the meantime, before its
slot was reclaimed as often as there are generations. -/
theorem gone_until_generations_wrap (h : Reachable d) :
    (∀ (c : Call) (x : NodeId), c.issued? d = some x →
      d.contains x = false ∧ (c.after d).contains x = true ∧
        ∀ (calls : List Call) (c' : Call), c'.issued? ((c.after d).run calls) = some x →
          UInt32.size ≤ (c.after d).reclamations x.index calls) ∧
    (∀ x, d.contains x = true →
      ∀ calls later : List Call, (d.run calls).contains x = false →
        d.reclamations x.index (calls ++ later) < UInt32.size → (d.run (calls ++ later)).Gone x) ∧
    ∀ x, d.contains x = true →
      ∀ c : Call, (c.after d).contains x = false → ∃ e, c = .edit e ∧ e.Reclaiming := by
  have hw := wellFormed_of_reachable h
  refine ⟨fun c x hc => ?_, fun x hx calls later hgone hlt => ?_, fun x hx c hgone => ?_⟩
  · obtain ⟨hbefore, hafter⟩ := hw.contains_issued hc
    exact ⟨hbefore, hafter, fun calls c' hc' =>
      (hw.afterCall c).reclamations_of_reissued hafter hc'⟩
  · have hpos := hw.reclamations_pos hx hgone
    refine (hw.run _).gone (hw.stale_of_reclamations hx ?_ hlt)
    rw [reclamations_append]
    omega
  · exact hw.reclaiming_of_stale hx hgone

/-- The second text is put where the first one was, and does not answer to its handle. -/
theorem gone_in_slot_used_again :
    ((new.createText "a").1.run [.edit (.delete ⟨1, 0⟩), .createText "b"]).Gone ⟨1, 0⟩ :=
  (gone_until_generations_wrap (.createText .new "a")).2.1 ⟨1, 0⟩ (by decide)
    [.edit (.delete ⟨1, 0⟩)] [.createText "b"] (by decide) (by decide)

end Document

end MarkupTree
