import MarkupTree.Proofs.Document.Store

/-!
# What the link steps do to the links

Each step that edits are made of is told by what becomes of the functions `parent?` and `children`;
all else about a document it leaves alone (`Relinked`). The links of a document are a forest in
which texts have nothing below them and document nodes nothing above (`Linked`), and the steps keep
it so.
-/

namespace MarkupTree.Document

variable {d e f : Document} {x y p c : NodeId}

/-- The documents differ in nothing but links. -/
structure Relinked (d e : Document) : Prop where
  skeleton : e.skeleton = d.skeleton
  free : e.free = d.free
  live : e.live = d.live
  content? : ∀ x, e.content? x = d.content? x

namespace Relinked

theorem refl (d : Document) : Relinked d d := ⟨rfl, rfl, rfl, fun _ => rfl⟩

theorem trans (h : Relinked d e) (h' : Relinked e f) : Relinked d f :=
  ⟨h'.skeleton.trans h.skeleton, h'.free.trans h.free, h'.live.trans h.live,
    fun x => (h'.content? x).trans (h.content? x)⟩

theorem symm (h : Relinked d e) : Relinked e d :=
  ⟨h.skeleton.symm, h.free.symm, h.live.symm, fun x => (h.content? x).symm⟩

theorem contains (h : Relinked d e) (x : NodeId) : e.contains x = d.contains x := by
  rw [Bool.eq_iff_iff, contains_iff_skeleton, contains_iff_skeleton, h.skeleton]

theorem kind? (h : Relinked d e) (x : NodeId) : e.kind? x = d.kind? x := by
  simp only [Document.kind?, h.content? x]

theorem isText (h : Relinked d e) (x : NodeId) : e.isText x = d.isText x := by
  simp only [Document.isText, h.kind? x]

theorem isDocument (h : Relinked d e) (x : NodeId) : e.isDocument x = d.isDocument x := by
  simp only [Document.isDocument, h.kind? x]

theorem isElement (h : Relinked d e) (x : NodeId) : e.isElement x = d.isElement x := by
  simp only [Document.isElement, h.kind? x]

theorem stored (h : Relinked d e) (hd : d.Stored) : e.Stored := hd.of_eq h.skeleton h.free h.live

theorem setParent (d : Document) (x : NodeId) (q : Option NodeId) :
    Relinked d (d.setParent x q) := by
  refine ⟨skeleton_modify .., rfl, rfl, fun y => ?_⟩
  by_cases hy : y = x
  · subst hy
    simp [Document.content?, Document.setParent, get?_modify_self, Function.comp_def]
  · simp [Document.content?, Document.setParent, get?_modify_of_ne hy]

theorem setChildren (d : Document) (x : NodeId) (cs : List NodeId) :
    Relinked d (d.setChildren x cs) := by
  refine ⟨skeleton_modify .., rfl, rfl, fun y => ?_⟩
  by_cases hy : y = x
  · subst hy
    simp [Document.content?, Document.setChildren, get?_modify_self, Function.comp_def]
  · simp [Document.content?, Document.setChildren, get?_modify_of_ne hy]

theorem unlink (d : Document) (x : NodeId) : Relinked d (d.unlink x) := by
  unfold Document.unlink
  split
  · exact (setChildren ..).trans (setParent ..)
  · exact setParent ..

theorem linkAt (d : Document) (p : NodeId) (n : Nat) (c : NodeId) : Relinked d (d.linkAt p n c) :=
  (setChildren ..).trans (setParent ..)

theorem linkLast (d : Document) (p c : NodeId) : Relinked d (d.linkLast p c) :=
  (setChildren ..).trans (setParent ..)

theorem foldl {β : Type} {g : Document → β → Document} (hg : ∀ d b, Relinked d (g d b)) :
    ∀ (l : List β) (d : Document), Relinked d (l.foldl g d)
  | [], d => refl d
  | b :: l, d => (hg d b).trans (foldl hg l (g d b))

theorem adopt (d : Document) (p : NodeId) (cs : List NodeId) : Relinked d (d.adopt p cs) :=
  foldl (fun d => linkLast d p) cs d

theorem orphan (d : Document) (x : NodeId) : Relinked d (d.orphan x) :=
  (setChildren ..).trans (foldl (fun d c => setParent d c none) ..)

theorem putChild (d : Document) (p : NodeId) (n : Nat) (c : NodeId) :
    Relinked d (d.putChild p n c) := setChildren ..

end Relinked

/-- A document is its slots as the skeleton tells, and the links and the content of its nodes. -/
theorem Relinked.eq_of_links (h : Relinked d e) (hup : e.parent? = d.parent?)
    (hdown : e.children = d.children) : e = d := by
  have hget : ∀ x, e.get? x = d.get? x := by
    intro x
    refine Option.ext fun n => ?_
    rw [get?_eq_some_iff, get?_eq_some_iff, h.contains, hup, hdown, h.content?]
  have hsize : e.slots.size = d.slots.size := by
    rw [← size_skeleton, ← size_skeleton, h.skeleton]
  have hslots : e.slots = d.slots := by
    refine Array.ext_getElem? fun i => ?_
    have hi : e.skeleton[i]? = d.skeleton[i]? := by rw [h.skeleton]
    simp only [Document.skeleton, Array.getElem?_map] at hi
    cases hd : d.slots[i]? with
    | none => rw [hd] at hi; simpa using hi
    | some s =>
      rw [hd] at hi
      obtain ⟨t, ht, hst⟩ := Option.map_eq_some_iff.1 hi
      rw [Prod.mk.injEq] at hst
      have := hget ⟨i, s.generation⟩
      simp only [get?, hd, ht, hst.1, if_true] at this
      rw [ht]
      cases s; cases t; simp_all
  have hfree := h.free
  have hlive := h.live
  cases d; cases e; simp_all

/-! ### Views of the steps -/

theorem parent?_setParent (h : d.contains x = true) (q : Option NodeId) :
    (d.setParent x q).parent? = Function.update d.parent? x q := by
  funext y
  by_cases hy : y = x
  · subst hy; rw [parent?_setParent_self h, Function.update_self]
  · rw [parent?_setParent_of_ne hy, Function.update_of_ne hy]

theorem parent?_setParent_none (d : Document) (x : NodeId) :
    (d.setParent x none).parent? = Function.update d.parent? x none := by
  by_cases h : d.contains x = true
  · exact parent?_setParent h none
  · funext y
    by_cases hy : y = x
    · subst hy
      rw [Function.update_self, parent?_of_stale (by rwa [contains_setParent])]
    · rw [parent?_setParent_of_ne hy, Function.update_of_ne hy]

theorem children_setChildren (h : d.contains x = true) (cs : List NodeId) :
    (d.setChildren x cs).children = Function.update d.children x cs := by
  funext y
  by_cases hy : y = x
  · subst hy; rw [children_setChildren_self h, Function.update_self]
  · rw [children_setChildren_of_ne hy, Function.update_of_ne hy]

theorem children_setChildren_nil (d : Document) (x : NodeId) :
    (d.setChildren x []).children = Function.update d.children x [] := by
  by_cases h : d.contains x = true
  · exact children_setChildren h []
  · funext y
    by_cases hy : y = x
    · subst hy
      rw [Function.update_self, children_of_stale (by rwa [contains_setChildren])]
    · rw [children_setChildren_of_ne hy, Function.update_of_ne hy]

theorem parent?_linkAt (h : d.contains c = true) (p : NodeId) (n : Nat) :
    (d.linkAt p n c).parent? = Function.update d.parent? c (some p) := by
  rw [linkAt, parent?_setParent (by rwa [contains_setChildren])]
  congr 1; funext y; exact parent?_setChildren ..

theorem children_linkAt_update (h : d.contains p = true) (n : Nat) (c : NodeId) :
    (d.linkAt p n c).children =
      Function.update d.children p ((d.children p).take n ++ c :: (d.children p).drop n) := by
  rw [← children_setChildren h]
  funext y; exact children_setParent ..

theorem parent?_putChild (d : Document) (p : NodeId) (n : Nat) (c : NodeId) :
    (d.putChild p n c).parent? = d.parent? := by
  funext y; exact parent?_setChildren ..

theorem children_putChild (h : d.contains p = true) (n : Nat) (c : NodeId) :
    (d.putChild p n c).children = Function.update d.children p ((d.children p).set n c) :=
  children_setChildren h _

theorem idxOf?_of_mem : ∀ {l : List NodeId}, x ∈ l → l.idxOf? x = some (l.idxOf x)
  | y :: l, h => by
    rw [List.idxOf?_cons, List.idxOf_cons]
    by_cases hy : y = x
    · simp [hy]
    · have hx : x ∈ l := (List.mem_cons.1 h).resolve_left (Ne.symm hy)
      rw [beq_false_of_ne hy, idxOf?_of_mem hx]; rfl

theorem position?_eq (h : Forest d.parent? d.children) (x : NodeId) :
    d.position? x = (d.parent? x).map fun p => (p, (d.children p).idxOf x) := by
  unfold position?
  cases hp : d.parent? x with
  | none => rfl
  | some p =>
    have hx : x ∈ d.children p := h.mem_down.2 hp
    simp only [idxOf?_of_mem hx, Option.map_some]

theorem parent?_unlink (d : Document) (x : NodeId) :
    (d.unlink x).parent? = Function.update d.parent? x none := by
  unfold unlink
  rw [parent?_setParent_none]
  congr 1
  split
  · funext y; exact parent?_setChildren ..
  · rfl

theorem parent?_unlink_self (d : Document) (x : NodeId) : (d.unlink x).parent? x = none := by
  rw [parent?_unlink, Function.update_self]

theorem parent?_unlink_of_ne (h : y ≠ x) : (d.unlink x).parent? y = d.parent? y := by
  rw [parent?_unlink, Function.update_of_ne h]

theorem parent?_of_unlink (h : (d.unlink x).parent? y = some p) : d.parent? y = some p := by
  by_cases hy : y = x
  · rw [hy, parent?_unlink_self] at h
    cases h
  · rwa [parent?_unlink_of_ne hy] at h

theorem children_unlink (h : Forest d.parent? d.children) (x : NodeId) :
    (d.unlink x).children = fun y => (d.children y).erase x := by
  funext y
  rw [unlink, children_setParent, position?_eq h]
  cases hp : d.parent? x with
  | none =>
    have hx : x ∉ d.children y := fun hx => by rw [h.mem_down, hp] at hx; cases hx
    simp [List.erase_of_not_mem hx]
  | some p =>
    have hx : x ∈ d.children p := h.mem_down.2 hp
    simp only [Option.map_some, List.eraseIdx_idxOf_eq_erase]
    rw [children_setChildren (contains_of_mem_children hx)]
    by_cases hy : y = p
    · subst hy; rw [Function.update_self]
    · have hx : x ∉ d.children y := fun hx => by
        rw [h.mem_down, hp] at hx; exact hy (Option.some.inj hx).symm
      rw [Function.update_of_ne hy, List.erase_of_not_mem hx]

theorem parent?_foldl_setParent_none : ∀ (cs : List NodeId) (d : Document),
    (cs.foldl (·.setParent · none) d).parent? = fun y => if y ∈ cs then none else d.parent? y
  | [], d => by simp
  | c :: cs, d => by
    funext y
    rw [List.foldl_cons, parent?_foldl_setParent_none cs, parent?_setParent_none]
    by_cases hy : y = c
    · subst hy; simp
    · simp [hy]

theorem parent?_orphan (h : ∀ y, y ∈ d.children x ↔ d.parent? y = some x) :
    (d.orphan x).parent? = fun y => if d.parent? y = some x then none else d.parent? y := by
  funext y
  simp only [orphan, parent?_foldl_setParent_none, parent?_setChildren, h]

theorem parent?_of_orphan (h : ∀ y, y ∈ d.children x ↔ d.parent? y = some x)
    (hy : (d.orphan x).parent? y = some p) : d.parent? y = some p := by
  simp only [parent?_orphan h, Option.ite_none_left_eq_some] at hy
  exact hy.2

theorem children_orphan (d : Document) (x : NodeId) :
    (d.orphan x).children = Function.update d.children x [] := by
  rw [orphan, ← children_setChildren_nil]
  generalize d.setChildren x [] = e
  generalize d.children x = cs
  induction cs generalizing e with
  | nil => rfl
  | cons c cs ih => rw [List.foldl_cons, ih]; funext y; exact children_setParent ..

theorem parent?_adopt (p : NodeId) : ∀ {cs : List NodeId} {d : Document},
    (∀ c ∈ cs, d.contains c = true) →
    (d.adopt p cs).parent? = fun y => if y ∈ cs then some p else d.parent? y
  | [], d, _ => by simp [adopt]
  | c :: cs, d, h => by
    have hcs : ∀ c' ∈ cs, (d.linkLast p c).contains c' = true := fun c' hc' => by
      rw [(Relinked.linkLast d p c).contains]; exact h c' (List.mem_cons_of_mem _ hc')
    funext y
    rw [adopt, List.foldl_cons, ← adopt, parent?_adopt p hcs, linkLast_eq,
      parent?_linkAt (h c List.mem_cons_self)]
    by_cases hy : y = c
    · subst hy; simp
    · simp [hy]

theorem children_adopt {p : NodeId} : ∀ {d : Document} (_ : d.contains p = true)
    (cs : List NodeId),
    (d.adopt p cs).children = Function.update d.children p (d.children p ++ cs)
  | d, _, [] => by simp [adopt]
  | d, hp, c :: cs => by
    have hp' : (d.linkLast p c).contains p = true := by rwa [(Relinked.linkLast d p c).contains]
    rw [adopt, List.foldl_cons, ← adopt, children_adopt hp' cs, linkLast_eq,
      children_linkAt_update hp]
    simp

end MarkupTree.Document
