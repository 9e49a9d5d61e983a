import MarkupTree.Proofs.Document.Commands

/-!
# What edits leave alone

An edit of the tree that reclaims nothing touches links only (`Relinked`). An edit of contents
touches one node only, and of what it holds the one name, attribute or text that the edit is about
(`Reworded`, `Changes`).
-/

namespace MarkupTree

namespace Attribute

/-- The attributes under other names. -/
def others (name : String) (as : List Attribute) : List Attribute := as.filter (·.name != name)

variable {name : String}

theorem others_assign (value : String) :
    ∀ as : List Attribute, others name (assign name value as) = others name as
  | [] => by simp [others, assign]
  | a :: as => by
    have ih := others_assign value as
    by_cases ha : a.name = name
    · simp [others, assign, ha]
    · simp only [others] at ih
      simp [others, assign, ha, ih]

theorem others_erase : ∀ as : List Attribute, others name (erase name as) = others name as
  | [] => rfl
  | a :: as => by
    have ih := others_erase as
    by_cases ha : a.name = name
    · simp [others, erase, ha]
    · simp only [others, erase] at ih
      simp [others, erase, ha, ih]

theorem lookup?_eq_none {as : List Attribute} :
    lookup? name as = none ↔ name ∉ as.map (·.name) := by
  simp [lookup?]

/-- Of attributes with different names erasing leaves none under the name. -/
theorem lookup?_erase_self : ∀ {as : List Attribute}, (as.map (·.name)).Nodup →
    lookup? name (erase name as) = none
  | [], _ => rfl
  | a :: as, h => by
    obtain ⟨ha, has⟩ := List.nodup_cons.1 (List.map_cons ▸ h)
    have ih := lookup?_erase_self has
    by_cases hn : a.name = name
    · rw [erase, List.eraseP_cons_of_pos (by simpa using hn), lookup?_eq_none, ← hn]
      exact ha
    · rw [erase, List.eraseP_cons_of_neg (by simpa using hn), lookup?,
        List.find?_cons_of_neg (by simpa using hn)]
      exact ih

theorem others_addToken (token : String) (as : List Attribute) :
    others "class" (addToken token as) = others "class" as := by
  unfold addToken
  split
  · split
    · rfl
    · split <;> exact others_assign _ as
  · exact others_assign _ as

theorem others_removeToken (token : String) (as : List Attribute) :
    others "class" (removeToken token as) = others "class" as := by
  unfold removeToken
  split
  · split
    · split
      · exact others_erase as
      · exact others_assign _ as
    · rfl
  · rfl

end Attribute

namespace Document

variable {d e f : Document} {x : NodeId}

/-- The documents differ in nothing but what the node `x` holds. -/
structure Reworded (d : Document) (x : NodeId) (e : Document) : Prop where
  skeleton : e.skeleton = d.skeleton
  free : e.free = d.free
  live : e.live = d.live
  parent? : e.parent? = d.parent?
  children : e.children = d.children
  content? : ∀ y, y ≠ x → e.content? y = d.content? y

namespace Reworded

theorem refl (d : Document) (x : NodeId) : Reworded d x d :=
  ⟨rfl, rfl, rfl, rfl, rfl, fun _ _ => rfl⟩

theorem trans (h : Reworded d x e) (h' : Reworded e x f) : Reworded d x f :=
  ⟨h'.skeleton.trans h.skeleton, h'.free.trans h.free, h'.live.trans h.live,
    h'.parent?.trans h.parent?, h'.children.trans h.children,
    fun y hy => (h'.content? y hy).trans (h.content? y hy)⟩

theorem contains (h : Reworded d x e) (y : NodeId) : e.contains y = d.contains y := by
  rw [Bool.eq_iff_iff, contains_iff_skeleton, contains_iff_skeleton, h.skeleton]

theorem setContent (d : Document) (x : NodeId) (c : Content) :
    Reworded d x (d.setContent x c) where
  skeleton := skeleton_modify ..
  free := rfl
  live := rfl
  parent? := parent?_setContent d x c
  children := children_setContent d x c
  content? _ hy := content?_setContent_of_ne hy c

end Reworded

/-! ### Edits of the tree -/

theorem Relinked.enclose (d : Document) (n w : NodeId) : Relinked d (d.enclose n w) := by
  unfold Document.enclose
  split
  · exact ((Relinked.unlink d n).trans (.linkAt ..)).trans (.linkAt ..)
  · exact .linkAt ..

theorem Relinked.wrap (h : d.Linked) {n w : NodeId} (he : d.wrap n w = .ok e) : Relinked d e := by
  obtain ⟨-, -, -, -, rfl⟩ := (wrap_eq_ok h).1 he
  exact ((Relinked.orphan d w).trans (.unlink _ w)).trans (.enclose _ n w)

theorem Relinked.unwrap {n : NodeId} (he : d.unwrap n = .ok e) : Relinked d e := by
  obtain ⟨p, -, rfl⟩ := unwrap_eq_ok.1 he
  exact ((Relinked.orphan d n).trans (.unlink _ n)).trans
    (.foldl (fun d (c : NodeId × Nat) => .linkAt d p _ c.1) _ _)

theorem Relinked.insertBeside (h : d.Linked) {node new : NodeId} {after : Nat} {use : ParentUse}
    (he : d.insertBeside node new after use = .ok e) : Relinked d e := by
  obtain ⟨p, -, -, rfl⟩ := (insertBeside_eq_ok h).1 he
  split
  · exact .refl d
  · exact (Relinked.unlink d new).trans (.linkAt ..)

end Document

namespace Command

open Document

variable {d e : Document} {c : Command} {x : NodeId}

/-- The edits that reclaim nodes. -/
def Reclaiming : Command → Prop
  | .delete _ | .replace _ _ | .normalize _ => True
  | _ => False

/-- The node whose content an edit is about; an edit of the tree is about none. -/
def reworded? : Command → Option NodeId
  | .setAttribute x _ _ | .deleteAttribute x _ | .addClass x _ | .removeClass x _ | .rename x _
  | .setText x _ => some x
  | _ => none

theorem relinked_apply (h : d.Linked) (hc : ¬ c.Reclaiming) (htree : c.reworded? = none)
    (he : c.apply d = .ok e) : Relinked d e := by
  cases c with
  | append p n =>
    obtain ⟨-, rfl⟩ := (append_eq_ok h).1 he
    exact (Relinked.unlink d n).trans (.linkLast ..)
  | prepend p n =>
    obtain ⟨-, rfl⟩ := (prepend_eq_ok h).1 he
    exact (Relinked.unlink d n).trans (.linkAt ..)
  | insertAt k p n =>
    obtain ⟨-, rfl⟩ := (insertAt_eq_ok h).1 he
    exact (Relinked.unlink d n).trans (.linkAt ..)
  | insertBefore | insertAfter => exact .insertBeside h he
  | detach n =>
    obtain ⟨-, rfl⟩ := detach_eq_ok.1 he
    exact .unlink d n
  | clear n =>
    obtain ⟨-, rfl⟩ := clear_eq_ok.1 he
    exact .orphan d n
  | swap a b =>
    obtain ⟨-, -, p, q, -, -, ⟨-, heq⟩ | ⟨-, -, -, heq⟩⟩ := (swap_eq_ok h).1 he
    · rw [heq]
      exact .refl d
    · rw [heq]
      exact (relinked_cross d a b p q).trans (relinked_exchange _ a b)
  | wrap n w => exact .wrap h he
  | unwrap n => exact .unwrap he
  | delete | replace | normalize => exact absurd trivial hc
  | setAttribute | deleteAttribute | addClass | removeClass | rename | setText => cases htree

/-! ### Edits of contents -/

/-- What an edit makes of the content of the node that it is about. -/
inductive Changes : Command → Content → Content → Prop
  | setAttribute {x : NodeId} {name value tag : String} {as bs : List Attribute}
      (value_eq : Attribute.lookup? name bs = some value)
      (others : Attribute.others name bs = Attribute.others name as) :
      Changes (.setAttribute x name value) (.element tag as) (.element tag bs)
  | deleteAttribute {x : NodeId} {name tag : String} {as bs : List Attribute}
      (gone : Attribute.lookup? name bs = none)
      (others : Attribute.others name bs = Attribute.others name as) :
      Changes (.deleteAttribute x name) (.element tag as) (.element tag bs)
  | addClass {x : NodeId} {token tag : String} {as bs : List Attribute}
      (others : Attribute.others "class" bs = Attribute.others "class" as) :
      Changes (.addClass x token) (.element tag as) (.element tag bs)
  | removeClass {x : NodeId} {token tag : String} {as bs : List Attribute}
      (others : Attribute.others "class" bs = Attribute.others "class" as) :
      Changes (.removeClass x token) (.element tag as) (.element tag bs)
  | rename {x : NodeId} {name tag : String} {as : List Attribute} :
      Changes (.rename x name) (.element tag as) (.element (Text.lower name) as)
  | setText {x : NodeId} {old new : String} : Changes (.setText x new) (.text old) (.text new)

/-- An edit of contents puts one new content into the node that it is about. -/
theorem exists_changes (h : d.WellFormed) (hc : c.reworded? = some x) (he : c.apply d = .ok e) :
    ∃ old new, d.content? x = some old ∧ e = d.setContent x new ∧ c.Changes old new := by
  cases c with
  | setAttribute y name value =>
    cases hc
    obtain ⟨tag, as, hold, rfl⟩ := setAttribute_eq_ok.1 he
    exact ⟨_, _, hold, rfl,
      .setAttribute (Attribute.lookup?_assign_self name value as)
        (Attribute.others_assign value as)⟩
  | deleteAttribute y name =>
    cases hc
    obtain ⟨_, hr, he⟩ := bind_eq_ok.1 he
    obtain ⟨tag, as, hold, rfl⟩ := deleteAttribute_eq_ok.1 hr
    rw [ok_eq_ok.1 he]
    exact ⟨_, _, hold, rfl,
      .deleteAttribute (Attribute.lookup?_erase_self (h.spelled hold).2)
        (Attribute.others_erase as)⟩
  | addClass y token =>
    cases hc
    obtain ⟨-, tag, as, hold, rfl⟩ := addClass_eq_ok.1 he
    exact ⟨_, _, hold, rfl, .addClass (Attribute.others_addToken token as)⟩
  | removeClass y token =>
    cases hc
    obtain ⟨-, tag, as, hold, rfl⟩ := removeClass_eq_ok.1 he
    exact ⟨_, _, hold, rfl, .removeClass (Attribute.others_removeToken token as)⟩
  | rename y name =>
    cases hc
    obtain ⟨tag, as, hold, -, rfl⟩ := rename_eq_ok.1 he
    exact ⟨_, _, hold, rfl, .rename⟩
  | setText y text =>
    cases hc
    obtain ⟨htext, rfl⟩ := setText_eq_ok.1 he
    obtain ⟨old, hold⟩ := isText_iff_content?.1 htext
    exact ⟨_, _, hold, rfl, .setText⟩
  | _ => cases hc

theorem reworded_apply (h : d.WellFormed) (hc : c.reworded? = some x) (he : c.apply d = .ok e) :
    Reworded d x e := by
  obtain ⟨_, new, -, rfl, -⟩ := exists_changes h hc he
  exact .setContent d x new

end Command

end MarkupTree
