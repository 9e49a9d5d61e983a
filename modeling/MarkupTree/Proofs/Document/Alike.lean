import MarkupTree.Proofs.Signal.Texts
import MarkupTree.Proofs.Tree.Form
import Mathlib.Data.List.Forall2

/-!
# What equality says of the nodes themselves

Nodes with equal trees have the same name, the same attributes up to order, the same text at and
below them and nodes with equal trees as their child elements. Texts may be split differently, so
of the children that are texts nothing is known one by one, but only whether all are empty.
-/

namespace MarkupTree

theorem Attribute.lookup?_eq_some_iff {as : List Attribute} (h : (as.map (·.name)).Nodup)
    {name value : String} : lookup? name as = some value ↔ ⟨name, value⟩ ∈ as := by
  rw [lookup?, Option.map_eq_some_iff]
  constructor
  · rintro ⟨a, ha, rfl⟩
    have hname : a.name = name := by simpa using List.find?_some ha
    exact hname ▸ List.mem_of_find?_eq_some ha
  · intro hmem
    obtain ⟨a, ha⟩ : ∃ a, as.find? (·.name == name) = some a := by
      rw [← Option.isSome_iff_exists, List.find?_isSome]
      exact ⟨_, hmem, beq_self_eq_true name⟩
    have hname : a.name = name := by simpa using List.find?_some ha
    have heq := List.inj_on_of_nodup_map h (List.mem_of_find?_eq_some ha) hmem hname
    exact ⟨a, ha, by rw [heq]⟩

theorem Attribute.lookup?_of_sorted_eq {as bs : List Attribute} (ha : (as.map (·.name)).Nodup)
    (h : sorted as = sorted bs) (name : String) : lookup? name as = lookup? name bs := by
  have hperm := (sorted_eq_iff_perm ha).1 h
  have hb := (hperm.map (·.name)).nodup_iff.1 ha
  ext value
  rw [lookup?_eq_some_iff ha, lookup?_eq_some_iff hb, hperm.mem_iff]

namespace Document

variable {d e : Document} {x y : NodeId}

/-- What equality of two nodes says of each of them. -/
structure Alike (d : Document) (x : NodeId) (e : Document) (y : NodeId) : Prop where
  kind? : d.kind? x = e.kind? y
  name? : d.name? x = e.name? y
  attribute? : ∀ name, d.attribute? x name = e.attribute? y name
  textContent : d.textContent x = e.textContent y
  hollow : (d.children x).all (fun c => d.text? c == some "") =
    (e.children y).all fun c => e.text? c == some ""
  elements : List.Forall₂ (fun c c' => d.equal c e c' = true) (d.childElements x)
    (e.childElements y)

/-! ### Children that are elements, and children that are empty -/

theorem ShowsList.filter_isElement {ts : List Tree} {xs : List NodeId} (hs : d.ShowsList ts xs)
    (ht : Tree.InnerList ts) : d.ShowsList (ts.filter Tree.isNode) (xs.filter d.isElement) := by
  match ts, xs, hs, ht with
  | [], [], _, _ => exact trivial
  | .text s :: ts, x :: xs, hs, ht =>
    have hx : ¬ d.isElement x = true := by
      rw [isElement_iff, Document.kind?, hs.1.1]
      simp [Content.kind]
    rw [List.filter_cons_of_neg Bool.false_ne_true, List.filter_cons_of_neg hx]
    exact hs.2.filter_isElement ht.2
  | .element name as cs :: ts, x :: xs, hs, ht =>
    have hx : d.isElement x = true := by rw [isElement_iff, Document.kind?, hs.1.1]; rfl
    rw [List.filter_cons_of_pos rfl, List.filter_cons_of_pos hx]
    exact ⟨hs.1, hs.2.filter_isElement ht.2⟩
  | .document _ :: _, _ :: _, _, ht => exact ht.1.elim

theorem ShowsList.all_text?_eq {ts : List Tree} {xs : List NodeId} (hs : d.ShowsList ts xs) :
    (xs.all fun x => d.text? x == some "") = ts.all Tree.isEmptyText := by
  induction ts generalizing xs with
  | nil =>
    rw [showsList_nil.1 hs]
    rfl
  | cons t ts ih =>
    cases xs with
    | nil => exact hs.elim
    | cons x xs =>
      have ht : (d.text? x == some "") = t.isEmptyText := by
        cases t with
        | text s =>
          rw [text?_of_content? hs.1.1, Bool.eq_iff_iff]
          simp [Content.text?, Tree.isEmptyText]
        | document cs => rw [text?_of_content? hs.1.1]; rfl
        | element name as cs => rw [text?_of_content? hs.1.1]; rfl
      rw [List.all_cons, List.all_cons, ht, ih hs.2]

/-! ### From trees to nodes -/

theorem forall₂_equal (hd : d.Linked) (he : e.Linked) : ∀ {ts us : List Tree}
    {xs ys : List NodeId}, d.ShowsList ts xs → e.ShowsList us ys → Tree.InnerList ts →
    ts.map Tree.form = us.map Tree.form →
    List.Forall₂ (fun x y => d.equal x e y = true) xs ys
  | [], [], [], [], _, _, _, _ => .nil
  | t :: ts, u :: us, x :: xs, y :: ys, hs, hs', ht, h => by
    obtain ⟨hform, h⟩ := List.cons.inj h
    refine .cons ?_ (forall₂_equal hd he hs.2 hs'.2 ht.2 h)
    rw [equal, hs.1.tree?_eq hd, hs'.1.tree?_eq he]
    exact (Tree.same_iff (Tree.normal_eq id t ▸ (ht.1.joined id).prune)).2 hform
  | [], _ :: _, _, _, _, _, _, h => nomatch h
  | _ :: _, [], _, _, _, _, _, h => nomatch h

theorem exists_shows_of_equal (hd : d.Linked) (he : e.Linked) (h : d.equal x e y = true) :
    ∃ t u, d.Shows t x ∧ e.Shows u y ∧ t.equal u = true := by
  have hlive : ∀ {d : Document} {x : NodeId} {t : Tree}, d.Linked → d.tree? x = some t →
      d.contains x = true := by
    intro d x t hd ht
    rw [hd.tree?_eq] at ht
    obtain ⟨c, hc, -⟩ := Option.map_eq_some_iff.1 ht
    exact contains_iff_content?.2 ⟨c, hc⟩
  rw [equal] at h
  split at h
  · rename_i t u ht hu
    obtain ⟨t', ht'⟩ := hd.exists_shows x (hlive hd ht)
    obtain ⟨u', hu'⟩ := he.exists_shows y (hlive he hu)
    obtain rfl := Option.some.inj (ht.symm.trans (ht'.tree?_eq hd))
    obtain rfl := Option.some.inj (hu.symm.trans (hu'.tree?_eq he))
    exact ⟨t, u, ht', hu', h⟩
  · cases h

theorem Shows.children {t : Tree} (hs : d.Shows t x) : d.ShowsList t.children (d.children x) := by
  cases t with
  | document ts => exact hs.2
  | element name as ts => exact hs.2
  | text s => rw [hs.2]; exact trivial

theorem Shows.kind?_eq {t : Tree} (hs : d.Shows t x) : d.kind? x = some t.kind := by
  rw [Document.kind?]
  cases t with
  | document ts => rw [hs.1]; rfl
  | element name as ts => rw [hs.1]; rfl
  | text s => rw [hs.1]; rfl

theorem alike_of_equal (hd : d.WellFormed) (he : e.WellFormed) (h : d.equal x e y = true) :
    Alike d x e y := by
  obtain ⟨t, u, hs, hs', htu⟩ := exists_shows_of_equal hd.linked he.linked h
  have hti := hs.innerList_branches hd
  have hui := hs'.innerList_branches he
  obtain ⟨hkind, hkey⟩ := (Tree.same_normal_iff hti).1 htu
  have hchildren := Tree.key_children hkind hkey
  have htexts : Signal.textContent t.signals = Signal.textContent u.signals := by
    have hcanon := ((Tree.same_normal_iff_canonical hti hui).1 htu).2
    rw [Signal.map_mapText_id, Signal.map_mapText_id] at hcanon
    rw [← Signal.textContent_canonical, hcanon, Signal.textContent_canonical]
  have helement : d.name? x = e.name? y ∧ ∀ name, d.attribute? x name = e.attribute? y name := by
    simp only [name?, attribute?, attributes]
    cases t with
    | document ts =>
      cases u <;> cases hkind
      rw [hs.1, hs'.1]
      exact ⟨rfl, fun _ => rfl⟩
    | text s =>
      cases u <;> cases hkind
      rw [hs.1, hs'.1]
      exact ⟨rfl, fun _ => rfl⟩
    | element name as ts =>
      cases u <;> cases hkind
      obtain ⟨hname, has, -⟩ := Tree.element.inj (List.cons.inj hkey).1
      rw [hs.1, hs'.1, hname]
      exact ⟨rfl, Attribute.lookup?_of_sorted_eq hti.1.1.2 has⟩
  refine ⟨by rw [hs.kind?_eq, hs'.kind?_eq, hkind], helement.1, helement.2, ?_, ?_, ?_⟩
  · rw [textContent, textContent, hs.texts_eq hd.linked, hs'.texts_eq he.linked]
    exact htexts
  · rw [hs.children.all_text?_eq, hs'.children.all_text?_eq, Bool.eq_iff_iff,
      ← Tree.key_eq_nil_iff, ← Tree.key_eq_nil_iff, hchildren]
  · have hinner := Tree.innerList_children hti
    refine forall₂_equal hd.linked he.linked (hs.children.filter_isElement hinner)
      (hs'.children.filter_isElement (Tree.innerList_children hui)) hinner.filter_isNode ?_
    rw [← Tree.filter_isNode_key, ← Tree.filter_isNode_key, hchildren]

end Document

end MarkupTree
