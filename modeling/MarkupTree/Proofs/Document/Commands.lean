import MarkupTree.Document.Command
import MarkupTree.Proofs.Document.Contents
import MarkupTree.Proofs.Document.Merge
import MarkupTree.Proofs.Document.Swap

/-!
# What edits need

For every edit the condition under which it is done. Otherwise it is refused; there is no third.
-/

namespace MarkupTree.Command

open Document

variable {d e : Document}

/-- `node` can become a child of `parent`, which has to take children. -/
def Attachable (d : Document) (parent node : NodeId) : Prop :=
  d.contains node = true ∧ ¬ d.isDocument node = true ∧ ¬ Reaches d.parent? parent node

/-- What an edit needs of the document. -/
def Allowed (d : Document) : Command → Prop
  | .append parent node | .prepend parent node | .insertAt _ parent node =>
    d.contains parent = true ∧ ¬ d.isText parent = true ∧ Attachable d parent node
  | .insertBefore node new | .insertAfter node new =>
    ∃ parent, d.parent? node = some parent ∧ Attachable d parent new
  | .replace node new =>
    (∃ parent, d.parent? node = some parent ∧ Attachable d parent new) ∧
      (new = node ∨ ¬ Reaches d.parent? new node)
  | .swap a b =>
    (d.isElement a = true ∧ ∃ parent, d.parent? a = some parent) ∧
      (d.isElement b = true ∧ ∃ parent, d.parent? b = some parent) ∧
      (a = b ∨ ¬ Reaches d.parent? a b ∧ ¬ Reaches d.parent? b a)
  | .wrap node element =>
    d.isElement element = true ∧ d.contains node = true ∧ ¬ d.isDocument node = true ∧
      ¬ Reaches d.parent? node element
  | .unwrap node => ∃ parent, d.parent? node = some parent
  | .delete node => d.contains node = true ∧ node ≠ .root
  | .detach node | .clear node | .normalize node => d.contains node = true
  | .setAttribute element _ _ | .deleteAttribute element _ => d.isElement element = true
  | .addClass element token | .removeClass element token =>
    IsToken token ∧ d.isElement element = true
  | .rename element name => d.isElement element = true ∧ name ≠ ""
  | .setText node _ => d.isText node = true

theorem attachable_iff (h : d.Linked) {p n c : NodeId} (hp : d.parent? n = some p) :
    Attachable d p c ↔ d.Insertable p c :=
  ⟨fun hc => ⟨h.contains_parent hp, hc.1, h.not_isText_parent hp, hc.2.1, hc.2.2⟩,
    fun hc => ⟨hc.child, hc.not_document, hc.apart⟩⟩

theorem insertable_iff {p c : NodeId} :
    d.Insertable p c ↔ d.contains p = true ∧ ¬ d.isText p = true ∧ Attachable d p c :=
  ⟨fun hc => ⟨hc.parent, hc.container, hc.child, hc.not_document, hc.apart⟩,
    fun ⟨hp, ht, hc, hd, ha⟩ => ⟨hp, hc, ht, hd, ha⟩⟩

theorem carries (h : d.WellFormed) (c : Command) : InPlace.Carries d c.inPlace (c.apply d) := by
  cases c with
  | append => exact InPlace.append_carries h
  | prepend => exact InPlace.prepend_carries h
  | insertAt k => exact InPlace.insertAt_carries h k
  | insertBefore => exact InPlace.insertBeside_carries h 0 .insertBefore
  | insertAfter => exact InPlace.insertBeside_carries h 1 .insertAfter
  | detach => exact InPlace.detach_carries h
  | delete => exact InPlace.delete_carries h
  | clear => exact InPlace.clear_carries h
  | replace => exact InPlace.replace_carries h
  | swap => exact InPlace.swap_carries h
  | wrap => exact InPlace.wrap_carries h
  | unwrap => exact InPlace.unwrap_carries h
  | normalize => exact InPlace.normalize_carries h
  | setAttribute x name value => exact InPlace.setAttribute_carries h name value
  | deleteAttribute x name => exact InPlace.deleteAttribute_carries h name
  | addClass x token => exact InPlace.addClass_carries h token
  | removeClass x token => exact InPlace.removeClass_carries h token
  | rename x name => exact InPlace.rename_carries h name
  | setText x text => exact InPlace.setText_carries h text

theorem wellFormed_apply (h : d.WellFormed) {c : Command} (hc : c.apply d = .ok e) :
    e.WellFormed := by
  have hcar := carries h c
  rw [hc] at hcar
  exact hcar.2

/-! ### When an edit is done -/

section
variable (h : d.Linked)
include h

theorem exists_insertBeside {node new : NodeId} {after : Nat} {use : ParentUse} :
    (∃ e, d.insertBeside node new after use = .ok e) ↔
      ∃ parent, d.parent? node = some parent ∧ Attachable d parent new := by
  simp only [insertBeside_eq_ok h]
  constructor
  · rintro ⟨_, p, hp, hi, _⟩
    exact ⟨p, hp, (attachable_iff h hp).2 hi⟩
  · rintro ⟨p, hp, hi⟩
    exact ⟨_, p, hp, (attachable_iff h hp).1 hi, rfl⟩

theorem exists_replace {node new : NodeId} :
    (∃ e, d.replace node new = .ok e) ↔ (Command.replace node new).Allowed d := by
  simp only [replace_eq_ok h, Allowed]
  constructor
  · rintro ⟨_, p, hp, hi, hcase⟩
    refine ⟨⟨p, hp, (attachable_iff h hp).2 hi⟩, ?_⟩
    exact hcase.imp (fun hc => hc.1) fun hc => hc.2.1
  · rintro ⟨⟨p, hp, hi⟩, hcase⟩
    have hi := (attachable_iff h hp).1 hi
    by_cases hne : new = node
    · exact ⟨_, p, hp, hi, .inl ⟨hne, rfl⟩⟩
    · exact ⟨_, p, hp, hi, .inr ⟨hne, hcase.resolve_left hne, rfl⟩⟩

theorem exists_swap {a b : NodeId} :
    (∃ e, d.swap a b = .ok e) ↔ (Command.swap a b).Allowed d := by
  simp only [swap_eq_ok h, Allowed]
  constructor
  · rintro ⟨_, ha, hb, p, q, hp, hq, hcase⟩
    exact ⟨⟨ha, p, hp⟩, ⟨hb, q, hq⟩, hcase.imp (fun hc => hc.1) fun hc => ⟨hc.2.2.1, hc.2.1⟩⟩
  · rintro ⟨⟨ha, p, hp⟩, ⟨hb, q, hq⟩, hcase⟩
    by_cases hab : a = b
    · exact ⟨_, ha, hb, p, q, hp, hq, .inl ⟨hab, rfl⟩⟩
    · obtain ⟨h₁, h₂⟩ := hcase.resolve_left hab
      exact ⟨_, ha, hb, p, q, hp, hq, .inr ⟨hab, h₂, h₁, rfl⟩⟩

end

/-- What only the name and the attributes of an element decide can be done with every element. -/
theorem exists_of_element {x : NodeId} {f : String → List Attribute → Document} :
    (∃ e, ∃ tag as, d.content? x = some (.element tag as) ∧ e = f tag as) ↔
      d.isElement x = true := by
  rw [isElement_iff_content?]
  constructor
  · rintro ⟨_, tag, as, hc, _⟩
    exact ⟨tag, as, hc⟩
  · rintro ⟨tag, as, hc⟩
    exact ⟨_, tag, as, hc, rfl⟩

theorem exists_deleteAttribute {x : NodeId} {name : String} :
    (∃ e, (Command.deleteAttribute x name).apply d = .ok e) ↔ d.isElement x = true := by
  simp only [apply, bind_eq_ok, deleteAttribute_eq_ok, ok_eq_ok]
  rw [isElement_iff_content?]
  constructor
  · rintro ⟨_, _, ⟨tag, as, hc, _⟩, _⟩
    exact ⟨tag, as, hc⟩
  · rintro ⟨tag, as, hc⟩
    exact ⟨_, _, ⟨tag, as, hc, rfl⟩, rfl⟩

theorem exists_rename {x : NodeId} {name : String} :
    (∃ e, d.rename x name = .ok e) ↔ (Command.rename x name).Allowed d := by
  simp only [rename_eq_ok, Allowed]
  rw [isElement_iff_content?]
  constructor
  · rintro ⟨_, tag, as, hc, hname, _⟩
    exact ⟨⟨tag, as, hc⟩, hname⟩
  · rintro ⟨⟨tag, as, hc⟩, hname⟩
    exact ⟨_, tag, as, hc, hname, rfl⟩

theorem apply_eq_ok_iff (h : d.WellFormed) (c : Command) :
    (∃ e, c.apply d = .ok e) ↔ c.Allowed d := by
  have hl := h.linked
  cases c with
  | append p x =>
    simp only [apply, append_eq_ok hl, Allowed, ← insertable_iff]
    simp
  | prepend p x =>
    simp only [apply, prepend_eq_ok hl, Allowed, ← insertable_iff]
    simp
  | insertAt k p x =>
    simp only [apply, insertAt_eq_ok hl, Allowed, ← insertable_iff]
    simp
  | insertBefore node new => exact exists_insertBeside hl
  | insertAfter node new => exact exists_insertBeside hl
  | detach x => simp [apply, detach_eq_ok, Allowed]
  | delete x => simp [apply, delete_eq_ok, Allowed]
  | clear x => simp [apply, clear_eq_ok, Allowed]
  | replace node new => exact exists_replace hl
  | swap a b => exact exists_swap hl
  | wrap node w => simp [apply, wrap_eq_ok hl, Allowed]
  | unwrap node => simp [apply, unwrap_eq_ok, Allowed]
  | normalize x => simp [apply, normalize_eq_ok, Allowed]
  | setAttribute x name value =>
    simp only [apply, setAttribute_eq_ok, Allowed]
    exact exists_of_element
  | deleteAttribute x name => exact exists_deleteAttribute
  | addClass x token =>
    simp only [apply, addClass_eq_ok, Allowed, exists_and_left]
    exact and_congr_right fun _ => exists_of_element
  | removeClass x token =>
    simp only [apply, removeClass_eq_ok, Allowed, exists_and_left]
    exact and_congr_right fun _ => exists_of_element
  | rename x name => exact exists_rename
  | setText x text => simp [apply, setText_eq_ok, Allowed]

/-! ### The nodes that an edit is given -/

/-- The handles that an edit is given. -/
def arguments : Command → List NodeId
  | .append parent node | .prepend parent node | .insertAt _ parent node => [parent, node]
  | .insertBefore node new | .insertAfter node new | .replace node new => [node, new]
  | .swap a b => [a, b]
  | .wrap node element => [node, element]
  | .detach node | .delete node | .clear node | .unwrap node | .normalize node => [node]
  | .setAttribute element _ _ | .deleteAttribute element _ | .addClass element _
  | .removeClass element _ | .rename element _ => [element]
  | .setText node _ => [node]

variable {c : Command} {x : NodeId}

/-- An edit is done only if all nodes that it is given are live. -/
theorem Allowed.contains (h : c.Allowed d) (hx : x ∈ c.arguments) : d.contains x = true := by
  cases c with
  | append p n | prepend p n | insertAt _ p n =>
    obtain ⟨hp, -, hn, -⟩ := h
    rcases List.mem_pair.1 hx with rfl | rfl
    · exact hp
    · exact hn
  | insertBefore n new | insertAfter n new =>
    obtain ⟨p, hp, hnew, -⟩ := h
    rcases List.mem_pair.1 hx with rfl | rfl
    · exact contains_of_parent? hp
    · exact hnew
  | replace n new =>
    obtain ⟨⟨p, hp, hnew, -⟩, -⟩ := h
    rcases List.mem_pair.1 hx with rfl | rfl
    · exact contains_of_parent? hp
    · exact hnew
  | swap a b =>
    obtain ⟨⟨ha, -⟩, ⟨hb, -⟩, -⟩ := h
    rcases List.mem_pair.1 hx with rfl | rfl
    · exact contains_of_isElement ha
    · exact contains_of_isElement hb
  | wrap n w =>
    obtain ⟨hw, hn, -, -⟩ := h
    rcases List.mem_pair.1 hx with rfl | rfl
    · exact hn
    · exact contains_of_isElement hw
  | unwrap n =>
    obtain ⟨p, hp⟩ := h
    rw [List.mem_singleton.1 hx]
    exact contains_of_parent? hp
  | delete n =>
    rw [List.mem_singleton.1 hx]
    exact h.1
  | detach n | clear n | normalize n =>
    rw [List.mem_singleton.1 hx]
    exact h
  | setAttribute e | deleteAttribute e =>
    rw [List.mem_singleton.1 hx]
    exact contains_of_isElement h
  | addClass e | removeClass e =>
    rw [List.mem_singleton.1 hx]
    exact contains_of_isElement h.2
  | rename e =>
    rw [List.mem_singleton.1 hx]
    exact contains_of_isElement h.1
  | setText n =>
    rw [List.mem_singleton.1 hx]
    exact contains_of_isText h

/-- An edit that is given a stale handle is refused. -/
theorem refused_of_stale (h : d.WellFormed) (hc : x ∈ c.arguments) (hx : ¬ d.contains x = true) :
    ∃ cause, c.apply d = .error cause ∧ c.inPlace d = .error (.refused cause) d := by
  have hrun := carries h c
  cases ha : c.apply d with
  | ok e => exact absurd (Allowed.contains ((apply_eq_ok_iff h c).1 ⟨e, ha⟩) hc) hx
  | error cause =>
    rw [ha] at hrun
    exact ⟨cause, rfl, hrun⟩

end MarkupTree.Command
