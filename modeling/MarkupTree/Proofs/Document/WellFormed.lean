import MarkupTree.Proofs.Document.Reclaim
import MarkupTree.Proofs.Text.LowerCase

/-!
# Well-formed documents

The invariant of all documents that can be made: links in order, slots and counter in order, the
first slot holding the document node that the document is born with, and every element spelled as
elements are created, with its name in lower case and no attribute named twice.
-/

namespace MarkupTree

/-- The name is in lower case and no attribute is named twice. -/
def Content.Spelled : Content → Prop
  | .element name attributes => Text.lower name = name ∧ (attributes.map (·.name)).Nodup
  | _ => True

theorem spelled_element (name : String) (as : List Attribute) :
    (Content.element (Text.lower name) (Attribute.keepFirst as)).Spelled :=
  ⟨Text.lower_lower name, Attribute.nodup_keepFirst as⟩

namespace Document

variable {d e : Document} {x p : NodeId} {c : Content}

structure WellFormed (d : Document) : Prop where
  linked : d.Linked
  stored : d.Stored
  root : d.content? .root = some .document
  spelled : ∀ {x c}, d.content? x = some c → c.Spelled

theorem content?_setContent_of_ne {y : NodeId} (hy : y ≠ x) (c : Content) :
    (d.setContent x c).content? y = d.content? y := by
  simp [content?, setContent, get?_modify_of_ne hy]

theorem content?_setContent_self (hx : d.contains x = true) (c : Content) :
    (d.setContent x c).content? x = some c := by
  obtain ⟨node, hn⟩ := contains_iff.1 hx
  simp [content?, setContent, get?_modify_self, hn]

theorem contains_setContent (d : Document) (x : NodeId) (c : Content) (y : NodeId) :
    (d.setContent x c).contains y = d.contains y := contains_modify ..

theorem parent?_setContent (d : Document) (x : NodeId) (c : Content) :
    (d.setContent x c).parent? = d.parent? := by
  funext y
  by_cases hy : y = x
  · subst hy
    rw [parent?, parent?, setContent, get?_modify_self, Option.bind_map]
    rfl
  · simp [parent?, setContent, get?_modify_of_ne hy]

theorem children_setContent (d : Document) (x : NodeId) (c : Content) :
    (d.setContent x c).children = d.children := by
  funext y
  rw [children_eq_getD, children_eq_getD]
  by_cases hy : y = x
  · subst hy
    simp [setContent, get?_modify_self, Function.comp_def]
  · simp [setContent, get?_modify_of_ne hy]

/-- New content of the same kind does not change the kind of any node. -/
theorem kind?_setContent (hx : d.kind? x = some c.kind) (y : NodeId) :
    (d.setContent x c).kind? y = d.kind? y := by
  by_cases hy : y = x
  · subst hy
    rw [hx, kind?, content?_setContent_self (contains_of_kind? hx), Option.map_some]
  · rw [kind?, content?_setContent_of_ne hy, kind?]

theorem kind?_eq_some_document : d.kind? x = some .document ↔ d.content? x = some .document := by
  rw [kind?, Option.map_eq_some_iff]
  constructor
  · rintro ⟨c, hc, hk⟩
    cases c <;> simp_all [Content.kind]
  · exact fun h => ⟨_, h, rfl⟩

theorem isElement_iff_content? :
    d.isElement x = true ↔ ∃ tag as, d.content? x = some (.element tag as) := by
  rw [isElement_iff, kind?, Option.map_eq_some_iff]
  constructor
  · rintro ⟨c, hc, hk⟩
    cases c with
    | element tag as => exact ⟨tag, as, hc⟩
    | document => cases hk
    | text => cases hk
  · rintro ⟨tag, as, hc⟩
    exact ⟨_, hc, rfl⟩

theorem isText_iff_content? : d.isText x = true ↔ ∃ s, d.content? x = some (.text s) := by
  rw [isText_iff, kind?, Option.map_eq_some_iff]
  constructor
  · rintro ⟨c, hc, hk⟩
    cases c with
    | text s => exact ⟨s, hc⟩
    | document => cases hk
    | element => cases hk
  · rintro ⟨s, hc⟩
    exact ⟨_, hc, rfl⟩

namespace WellFormed

theorem parent?_root (h : d.WellFormed) : d.parent? .root = none :=
  h.linked.document (by rw [isDocument_iff, kind?, h.root]; rfl)

theorem contains_root (h : d.WellFormed) : d.contains .root = true :=
  contains_iff_content?.2 ⟨_, h.root⟩

theorem ne_root_of_parent? (h : d.WellFormed) (hp : d.parent? x = some p) : x ≠ .root :=
  fun e => by rw [e, h.parent?_root] at hp; cases hp

theorem relink (h : d.WellFormed) (hr : Relinked d e) (hl : e.Linked) : e.WellFormed :=
  ⟨hl, hr.stored h.stored, by rw [hr.content?]; exact h.root,
    fun {x c} hc => h.spelled (x := x) (by rwa [hr.content?] at hc)⟩

theorem setContent (h : d.WellFormed) (hx : d.kind? x = some c.kind) (hc : c.Spelled) :
    (d.setContent x c).WellFormed := by
  have hlive := contains_of_kind? hx
  refine ⟨⟨?_, fun {y} hy => ?_, fun {y} hy => ?_⟩, h.stored.modify .., ?_, fun {y c'} hc' => ?_⟩
  · rw [parent?_setContent, children_setContent]; exact h.linked.forest
  · rw [isText_iff, kind?_setContent hx] at hy
    rw [children_setContent]; exact h.linked.text (isText_iff.2 hy)
  · rw [isDocument_iff, kind?_setContent hx] at hy
    rw [parent?_setContent]; exact h.linked.document (isDocument_iff.2 hy)
  · rw [← kind?_eq_some_document, kind?_setContent hx, kind?_eq_some_document]; exact h.root
  · by_cases hy : y = x
    · subst hy
      rw [content?_setContent_self hlive, Option.some.injEq] at hc'
      exact hc' ▸ hc
    · rw [content?_setContent_of_ne hy] at hc'
      exact h.spelled hc'

theorem alloc (h : d.WellFormed) (hc : c.Spelled) : (d.alloc c).1.WellFormed := by
  have hne : .root ≠ (d.alloc c).2 := fun e => h.stored.not_contains_alloc c (e ▸ h.contains_root)
  refine ⟨h.linked.alloc h.stored c, h.stored.alloc c, ?_, fun {y c'} hc' => ?_⟩
  · rw [content?_alloc h.stored, if_neg hne]; exact h.root
  · rw [content?_alloc h.stored] at hc'
    split at hc'
    · rw [Option.some.injEq] at hc'; exact hc' ▸ hc
    · exact h.spelled hc'

/-- A new node can be put below any node that takes children, since nothing is below it yet. -/
theorem insertable_alloc (h : d.WellFormed) (hp : d.contains p = true) (htext : ¬ d.isText p = true)
    (hc : c.kind ≠ .document) : (d.alloc c).1.Insertable p (d.alloc c).2 := by
  have hnew := h.stored.not_contains_alloc c
  have hpn : p ≠ (d.alloc c).2 := fun e => hnew (e ▸ hp)
  refine ⟨(contains_alloc h.stored c p).2 (.inr hp), (contains_alloc h.stored c _).2 (.inl rfl),
    ?_, ?_, fun hr => ?_⟩
  · rw [isText_iff, kind?_alloc_of_ne h.stored c hpn, ← isText_iff]; exact htext
  · rw [isDocument_iff, kind?, content?_alloc h.stored, if_pos rfl, Option.map_some,
      Option.some.injEq]
    exact hc
  · rw [parent?_alloc h.stored] at hr
    rcases reaches_iff.1 hr with e | hpass
    · exact hpn e
    · exact hnew (h.linked.contains_of_passes hpass)

theorem parent?_new (h : d.WellFormed) (c : Content) :
    (d.alloc c).1.parent? (d.alloc c).2 = none := by
  rw [parent?_alloc h.stored]
  exact parent?_of_stale (h.stored.not_contains_alloc c)

/-- Any node but the document node can be reclaimed once it is detached. -/
theorem reclaim (h : d.WellFormed) (hx : d.contains x = true) (hup : d.parent? x = none)
    (hroot : x ≠ .root) : (d.reclaim x).WellFormed := by
  refine ⟨h.linked.reclaim hx hup, h.linked.stored_reclaim h.stored hx, ?_, fun {y c'} hc' => ?_⟩
  · rw [h.linked.content?_reclaim hx, if_neg]
    · exact h.root
    · rw [h.linked.mem_cons_descendants]
      exact fun hr => hroot (hr.eq_of_none h.parent?_root)
  · rw [h.linked.content?_reclaim hx, Option.ite_none_left_eq_some] at hc'
    exact h.spelled hc'.2

theorem unlink (h : d.WellFormed) (x : NodeId) : (d.unlink x).WellFormed :=
  h.relink (Relinked.unlink d x) (h.linked.unlink x)

theorem orphan (h : d.WellFormed) (x : NodeId) : (d.orphan x).WellFormed :=
  h.relink (Relinked.orphan d x) (h.linked.orphan x)

theorem linkAt (h : d.WellFormed) {c : NodeId} (hi : d.Insertable p c) (hc : d.parent? c = none)
    (n : Nat) : (d.linkAt p n c).WellFormed :=
  h.relink (Relinked.linkAt d p n c) (h.linked.linkAt hi hc n)

theorem linkLast (h : d.WellFormed) {c : NodeId} (hi : d.Insertable p c)
    (hc : d.parent? c = none) : (d.linkLast p c).WellFormed := by
  rw [linkLast_eq]; exact h.linkAt hi hc _

theorem adopt (h : d.WellFormed) {cs : List NodeId} (hnd : cs.Nodup)
    (hcs : ∀ c ∈ cs, d.Insertable p c ∧ d.parent? c = none) : (d.adopt p cs).WellFormed :=
  h.relink (Relinked.adopt d p cs) (h.linked.adopt hnd hcs)

end WellFormed

theorem slots_new : new.slots = #[⟨0, some (.detached .document)⟩] := rfl

theorem get?_new (x : NodeId) :
    new.get? x = if x = .root then some (.detached .document) else none := by
  by_cases hx : x = .root
  · subst hx; rfl
  · rw [if_neg hx]
    rw [get?, slots_new]
    by_cases hi : x.index = 0
    · have hg : (0 : UInt32) ≠ x.generation := fun e => hx (by cases x; simp_all [NodeId.root])
      simp [hi, hg]
    · simp [hi]

theorem wellFormed_new : new.WellFormed := by
  have hup : ∀ x, new.parent? x = none := by
    intro x; rw [parent?, get?_new]; split <;> rfl
  have hdown : ∀ x, new.children x = [] := by
    intro x; rw [children_eq_getD, get?_new]; split <;> rfl
  have hsk : new.skeleton = #[(0, true)] := by simp [skeleton, slots_new]
  refine ⟨⟨⟨fun {p x} => ?_, fun p => ?_, ⟨fun x => ⟨x, fun q hq => ?_⟩⟩⟩, fun _ => hdown _,
    fun _ => hup _⟩, ⟨.nil, fun {i} => ?_, ?_⟩, rfl, fun {x c} hc => ?_⟩
  · rw [hdown, hup]; simp
  · rw [hdown]; exact .nil
  · rw [hup] at hq; cases hq
  · rw [hsk]
    show i ∈ [] ↔ _
    cases i <;> simp
  · rw [hsk]; rfl
  · rw [content?, get?_new] at hc
    split at hc
    · rw [Option.map_some, Option.some.injEq] at hc; subst hc; trivial
    · cases hc

end Document

end MarkupTree
