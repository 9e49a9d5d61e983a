import MarkupTree.Proofs.Document.Moves
import Mathlib.Logic.Equiv.Basic

/-!
# Exchanging two elements

Two elements first change places, which writes the new links past all steps that keep the links in
order, and then change what is below them. In the end the links are the old ones with the two
handles exchanged, and so they are a forest again.
-/

namespace MarkupTree.Document

variable {d e : Document} {x y a b p q : NodeId}

/-- `a` and `b` have changed places and keep what is below them. -/
def cross (d : Document) (a b p q : NodeId) : Document :=
  (((d.putChild p (d.offset a) b).putChild q (d.offset b) a).setParent a (some q)).setParent b
    (some p)

/-- `a` and `b` have changed what is below them. -/
def exchange (d : Document) (a b : NodeId) : Document :=
  (((d.orphan a).orphan b).adopt a ((d.orphan a).children b)).adopt b (d.children a)

theorem swap_eq_ok (h : d.Linked) :
    d.swap a b = .ok e ↔ d.isElement a = true ∧ d.isElement b = true ∧
      ∃ p q, d.parent? a = some p ∧ d.parent? b = some q ∧
        (a = b ∧ e = d ∨ a ≠ b ∧ ¬ Reaches d.parent? b a ∧ ¬ Reaches d.parent? a b ∧
          e = (d.cross a b p q).exchange a b) := by
  rw [swap, bind_unit_eq_ok, requireKind_eq_ok, ← isElement_iff, bind_unit_eq_ok,
    requireKind_eq_ok, ← isElement_iff, bind_eq_ok]
  simp only [bind_eq_ok, requireParent_eq_ok, exists_and_left]
  refine and_congr_right fun _ => and_congr_right fun _ => exists_congr fun p =>
    and_congr_right fun _ => exists_congr fun q => and_congr_right fun _ => ?_
  by_cases hab : a = b
  · simp [hab, ok_eq_ok]
  · rw [if_neg hab, ite_error_eq_ok, ok_eq_ok, Bool.or_eq_true, h.isAncestorOrSelf_iff,
      h.isAncestorOrSelf_iff, not_or, and_assoc]
    simp only [hab, false_and, false_or, ne_eq, not_false_eq_true, true_and]
    rfl

/-! ### Changing places -/

theorem set_idxOf {l : List NodeId} (hnd : l.Nodup) (hb : b ∉ l) :
    l.set (l.idxOf a) b = l.map (Equiv.swap a b) := by
  refine List.ext_getElem (by simp) fun k hk _ => ?_
  rw [List.length_set] at hk
  have hkb : l[k] ≠ b := fun e => hb (e ▸ List.getElem_mem hk)
  rw [List.getElem_set, List.getElem_map]
  by_cases hka : l[k] = a
  · have hidx : l.idxOf a = k := by rw [← hka, hnd.idxOf_getElem]
    rw [if_pos hidx, hka, Equiv.swap_apply_left]
  · have hidx : l.idxOf a ≠ k := by
      rintro rfl
      exact hka (List.getElem_idxOf hk)
    rw [if_neg hidx, Equiv.swap_apply_of_ne_of_ne hka hkb]

theorem set_set_idxOf {l : List NodeId} (hnd : l.Nodup) (ha : a ∈ l) (hb : b ∈ l) :
    (l.set (l.idxOf a) b).set (l.idxOf b) a = l.map (Equiv.swap a b) := by
  refine List.ext_getElem (by simp) fun k hk _ => ?_
  rw [List.length_set, List.length_set] at hk
  rw [List.getElem_set, List.getElem_set, List.getElem_map]
  have hidx : ∀ {c}, c ∈ l → (l.idxOf c = k ↔ l[k] = c) := by
    intro c hc
    constructor
    · rintro rfl
      exact List.getElem_idxOf hk
    · rintro rfl
      exact hnd.idxOf_getElem k hk
  by_cases hkb : l[k] = b
  · rw [if_pos ((hidx hb).2 hkb), hkb, Equiv.swap_apply_right]
  rw [if_neg fun h => hkb ((hidx hb).1 h)]
  by_cases hka : l[k] = a
  · rw [if_pos ((hidx ha).2 hka), hka, Equiv.swap_apply_left]
  · rw [if_neg fun h => hka ((hidx ha).1 h), Equiv.swap_apply_of_ne_of_ne hka hkb]

theorem map_swap_of_not_mem {l : List NodeId} (ha : a ∉ l) (hb : b ∉ l) :
    l.map (Equiv.swap a b) = l := by
  conv_rhs => rw [← List.map_id l]
  refine List.map_congr_left fun y hy => ?_
  exact Equiv.swap_apply_of_ne_of_ne (fun e => ha (e ▸ hy)) fun e => hb (e ▸ hy)

theorem offset_of_parent? (h : d.Linked) (hp : d.parent? a = some p) :
    d.offset a = (d.children p).idxOf a := by
  rw [offset, position?_eq h.forest, hp]; rfl

theorem relinked_cross (d : Document) (a b p q : NodeId) : Relinked d (d.cross a b p q) :=
  (((Relinked.putChild d p _ b).trans (Relinked.putChild _ q _ a)).trans
    (Relinked.setParent _ a _)).trans (Relinked.setParent _ b _)

section
variable (h : d.Linked) (hp : d.parent? a = some p) (hq : d.parent? b = some q)
include h hp hq

omit h in
theorem parent?_cross : (d.cross a b p q).parent? = fun x => d.parent? (Equiv.swap a b x) := by
  have ha := contains_of_parent? hp
  have hb := contains_of_parent? hq
  funext x
  rw [cross, parent?_setParent, parent?_setParent, parent?_putChild, parent?_putChild]
  · by_cases hxb : x = b
    · rw [hxb, Function.update_self, Equiv.swap_apply_right, hp]
    rw [Function.update_of_ne hxb]
    by_cases hxa : x = a
    · rw [hxa, Function.update_self, Equiv.swap_apply_left, hq]
    · rw [Function.update_of_ne hxa, Equiv.swap_apply_of_ne_of_ne hxa hxb]
  · rw [(Relinked.putChild _ q _ a).contains, (Relinked.putChild d p _ b).contains]; exact ha
  · rw [contains_setParent, (Relinked.putChild _ q _ a).contains,
      (Relinked.putChild d p _ b).contains]
    exact hb

theorem children_cross :
    (d.cross a b p q).children = fun x => (d.children x).map (Equiv.swap a b) := by
  have hpl := h.contains_parent hp
  have hql := h.contains_parent hq
  have hap : a ∈ d.children p := h.mem_children.2 hp
  have hbq : b ∈ d.children q := h.mem_children.2 hq
  have hother : ∀ {x}, x ≠ p → x ≠ q → (d.children x).map (Equiv.swap a b) = d.children x := by
    intro x hxp hxq
    refine map_swap_of_not_mem (fun hx => hxp ?_) fun hx => hxq ?_
    · rw [h.mem_children, hp, Option.some.injEq] at hx; exact hx.symm
    · rw [h.mem_children, hq, Option.some.injEq] at hx; exact hx.symm
  have hset : (d.cross a b p q).children =
      ((d.putChild p (d.offset a) b).putChild q (d.offset b) a).children := by
    funext x
    rw [cross, children_setParent, children_setParent]
  have hql' : (d.putChild p (d.offset a) b).contains q = true := by
    rw [(Relinked.putChild d p _ b).contains]; exact hql
  rw [hset, children_putChild hql', children_putChild hpl, offset_of_parent? h hp,
    offset_of_parent? h hq]
  funext x
  by_cases hpq : p = q
  · subst hpq
    by_cases hxp : x = p
    · rw [hxp, Function.update_self, Function.update_self,
        set_set_idxOf (h.forest.nodup p) hap hbq]
    · rw [Function.update_of_ne hxp, Function.update_of_ne hxp, hother hxp hxp]
  · have hbp : b ∉ d.children p := fun hb => by
      rw [h.mem_children, hq, Option.some.injEq] at hb; exact hpq hb.symm
    have haq : a ∉ d.children q := fun ha => by
      rw [h.mem_children, hp, Option.some.injEq] at ha; exact hpq ha
    by_cases hxq : x = q
    · rw [hxq, Function.update_self, Function.update_of_ne (Ne.symm hpq),
        set_idxOf (h.forest.nodup q) haq, Equiv.swap_comm]
    rw [Function.update_of_ne hxq]
    by_cases hxp : x = p
    · rw [hxp, Function.update_self, set_idxOf (h.forest.nodup p) hbp]
    · rw [Function.update_of_ne hxp, hother hxp hxq]

theorem mem_children_cross :
    y ∈ (d.cross a b p q).children x ↔ (d.cross a b p q).parent? y = some x := by
  rw [children_cross h hp hq, parent?_cross hp hq]
  show y ∈ (d.children x).map (Equiv.swap a b) ↔ _
  rw [← h.mem_children, List.mem_map]
  constructor
  · rintro ⟨z, hz, rfl⟩
    rwa [Equiv.swap_apply_self]
  · exact fun hy => ⟨_, hy, Equiv.swap_apply_self a b y⟩

end

/-! ### Changing what is below -/

theorem children_orphan_other (hab : a ≠ b) : (d.orphan a).children b = d.children b := by
  rw [children_orphan, Function.update_of_ne (Ne.symm hab)]

theorem parent?_orphan_orphan (h : ∀ x y, y ∈ d.children x ↔ d.parent? y = some x)
    (hab : a ≠ b) : ((d.orphan a).orphan b).parent? =
    fun x => if d.parent? x = some a ∨ d.parent? x = some b then none else d.parent? x := by
  rw [parent?_orphan fun y => ?_, parent?_orphan (h a)]
  · funext x
    by_cases hxa : d.parent? x = some a
    · simp [hxa]
    · simp [hxa]
  · rw [children_orphan_other hab, h, parent?_orphan (h a)]
    show _ ↔ (if d.parent? y = some a then none else d.parent? y) = some b
    rw [Option.ite_none_left_eq_some]
    refine ⟨fun hy => ⟨fun hya => hab ?_, hy⟩, fun hy => hy.2⟩
    rw [hya, Option.some.injEq] at hy
    exact hy

theorem parent?_exchange (h : ∀ x y, y ∈ d.children x ↔ d.parent? y = some x) (hab : a ≠ b) :
    (d.exchange a b).parent? = fun x => (d.parent? x).map (Equiv.swap a b) := by
  have hlive : ∀ {x y}, y ∈ d.children x → d.contains y = true := fun {x y} hy =>
    contains_of_parent? ((h x y).1 hy)
  have hr := (Relinked.orphan d a).trans (Relinked.orphan (d.orphan a) b)
  rw [exchange, children_orphan_other hab, parent?_adopt, parent?_adopt,
    parent?_orphan_orphan h hab]
  · funext x
    simp only [h]
    by_cases hxa : d.parent? x = some a
    · simp [hxa]
    · by_cases hxb : d.parent? x = some b
      · simp [hxb, Ne.symm hab]
      · cases hx : d.parent? x with
        | none => simp
        | some r =>
          have hra : r ≠ a := fun e => hxa (e ▸ hx)
          have hrb : r ≠ b := fun e => hxb (e ▸ hx)
          simp [hra, hrb, Equiv.swap_apply_of_ne_of_ne hra hrb]
  · intro c hc
    rw [hr.contains]; exact hlive hc
  · intro c hc
    rw [(Relinked.adopt _ a _).contains, hr.contains]; exact hlive hc

theorem children_exchange (ha : d.contains a = true) (hb : d.contains b = true) (hab : a ≠ b) :
    (d.exchange a b).children = fun x => d.children (Equiv.swap a b x) := by
  have hr := (Relinked.orphan d a).trans (Relinked.orphan (d.orphan a) b)
  rw [exchange, children_orphan_other hab, children_adopt, children_adopt, children_orphan,
    children_orphan]
  · funext x
    by_cases hxb : x = b
    · rw [hxb, Function.update_self, Function.update_of_ne (Ne.symm hab), Function.update_self,
        Equiv.swap_apply_right, List.nil_append]
    rw [Function.update_of_ne hxb]
    by_cases hxa : x = a
    · rw [hxa, Function.update_self, Function.update_of_ne hab, Function.update_self,
        Equiv.swap_apply_left, List.nil_append]
    · rw [Function.update_of_ne hxa, Function.update_of_ne hxb, Function.update_of_ne hxa,
        Equiv.swap_apply_of_ne_of_ne hxa hxb]
  · rw [hr.contains]; exact ha
  · rw [(Relinked.adopt _ a _).contains, hr.contains]; exact hb

theorem relinked_exchange (d : Document) (a b : NodeId) : Relinked d (d.exchange a b) :=
  (((Relinked.orphan d a).trans (Relinked.orphan _ b)).trans (Relinked.adopt _ a _)).trans
    (Relinked.adopt _ b _)

/-! ### Both -/

section
variable (h : d.Linked) (hp : d.parent? a = some p) (hq : d.parent? b = some q) (hab : a ≠ b)
include h hp hq hab

theorem parent?_swapped : ((d.cross a b p q).exchange a b).parent? =
    fun x => (d.parent? (Equiv.swap a b x)).map (Equiv.swap a b) := by
  rw [parent?_exchange (fun _ _ => mem_children_cross h hp hq) hab, parent?_cross hp hq]

theorem children_swapped : ((d.cross a b p q).exchange a b).children =
    fun x => (d.children (Equiv.swap a b x)).map (Equiv.swap a b) := by
  have hr := relinked_cross d a b p q
  rw [children_exchange _ _ hab, children_cross h hp hq]
  · rw [hr.contains]; exact contains_of_parent? hp
  · rw [hr.contains]; exact contains_of_parent? hq

end

theorem Linked.swapped (h : d.Linked) (hp : d.parent? a = some p) (hq : d.parent? b = some q)
    (hab : a ≠ b) (ha : d.isElement a = true) (hb : d.isElement b = true) :
    ((d.cross a b p q).exchange a b).Linked := by
  have hr := (relinked_cross d a b p q).trans (relinked_exchange _ a b)
  have hother : ∀ {x}, ¬ d.isElement x = true → Equiv.swap a b x = x := fun {x} hx =>
    Equiv.swap_apply_of_ne_of_ne (fun e => hx (e ▸ ha)) fun e => hx (e ▸ hb)
  refine h.relink hr ?_ (fun x hx hnil => ?_) fun x hx hnone => ?_
  · rw [parent?_swapped h hp hq hab, children_swapped h hp hq hab]
    exact h.forest.rename (Equiv.swap_apply_self a b)
  · rw [children_swapped h hp hq hab]
    show (d.children (Equiv.swap a b x)).map _ = []
    rw [hother fun he => not_isText_of_isElement he hx, hnil, List.map_nil]
  · rw [parent?_swapped h hp hq hab]
    show (d.parent? (Equiv.swap a b x)).map _ = none
    rw [hother fun he => not_isDocument_of_isElement he hx, hnone, Option.map_none]

end MarkupTree.Document

namespace MarkupTree.InPlace

open Document

variable {d : Document} {a b p q : NodeId}

theorem setAt_of_parent? (h : d.Linked) (hp : d.parent? a = some p) (b : NodeId) :
    setAt (d.offset a) b (d.children p) = some ((d.children p).set (d.offset a) b) := by
  rw [offset_of_parent? h hp]
  exact if_pos (List.idxOf_lt_length_of_mem (h.mem_children.2 hp))

theorem setAt_putChild (h : d.Linked) (hp : d.parent? a = some p) (hq : d.parent? b = some q) :
    setAt (d.offset b) a ((d.putChild p (d.offset a) b).children q) =
      some (((d.putChild p (d.offset a) b).children q).set (d.offset b) a) := by
  rw [offset_of_parent? h hq, children_putChild (h.contains_parent hp)]
  have hlt := List.idxOf_lt_length_of_mem (h.mem_children.2 hq)
  refine if_pos ?_
  by_cases hqp : q = p
  · subst hqp
    rw [Function.update_self, List.length_set]; exact hlt
  · rw [Function.update_of_ne hqp]; exact hlt

theorem either_isAncestorOrSelf_eq (h : d.Linked) (a b : NodeId) :
    (isAncestorOrSelf a b <||> isAncestorOrSelf b a) d =
      .ok (d.isAncestorOrSelf a b || d.isAncestorOrSelf b a) d := by
  show (isAncestorOrSelf a b >>= fun t => _) d = _
  rw [bind_of_ok (isAncestorOrSelf_eq h a b)]
  cases d.isAncestorOrSelf a b with
  | true => rfl
  | false => exact isAncestorOrSelf_eq h b a

/-- What is below two elements is taken away from both and given to the other. -/
theorem exchange_eq (h : ∀ x y, y ∈ d.children x ↔ d.parent? y = some x)
    (hnd : ∀ x, (d.children x).Nodup) (ha : d.contains a = true) (hb : d.contains b = true)
    (hab : a ≠ b) : (do
      let childrenA ← takeChildren a
      let childrenB ← takeChildren b
      adopt a childrenB
      adopt b childrenA) d = .ok () (d.exchange a b) := by
  have hlive : ∀ {x y}, y ∈ d.children x → d.contains y = true := fun {x y} hy =>
    contains_of_parent? ((h x y).1 hy)
  have h₁ := Relinked.orphan d a
  have h₂ := h₁.trans (Relinked.orphan (d.orphan a) b)
  have h₃ := h₂.trans (Relinked.adopt ((d.orphan a).orphan b) a (d.children b))
  have hsame : (d.orphan a).children b = d.children b := children_orphan_other hab
  have htakeA : takeChildren a d = .ok (d.children a) (d.orphan a) :=
    takeChildren_of_contains ha fun _ => hlive
  have htakeB : takeChildren b (d.orphan a) = .ok (d.children b) ((d.orphan a).orphan b) := by
    rw [← hsame]
    refine takeChildren_of_contains (by rw [h₁.contains]; exact hb) fun y hy => ?_
    rw [hsame] at hy
    rw [h₁.contains]; exact hlive hy
  have hadoptA : adopt a (d.children b) ((d.orphan a).orphan b) =
      .ok () (((d.orphan a).orphan b).adopt a (d.children b)) := by
    refine adopt_of_detached (by rw [h₂.contains]; exact ha) (hnd b) fun c hc => ⟨?_, ?_⟩
    · rw [h₂.contains]; exact hlive hc
    · rw [parent?_orphan_orphan h hab]
      exact if_pos (.inr ((h b c).1 hc))
  have hadoptB : adopt b (d.children a) (((d.orphan a).orphan b).adopt a (d.children b)) =
      .ok () ((((d.orphan a).orphan b).adopt a (d.children b)).adopt b (d.children a)) := by
    refine adopt_of_detached (by rw [h₃.contains]; exact hb) (hnd a) fun c hc => ⟨?_, ?_⟩
    · rw [h₃.contains]; exact hlive hc
    · have hcb : c ∉ d.children b := fun hcb => by
        rw [h, (h a c).1 hc, Option.some.injEq] at hcb; exact hab hcb
      rw [parent?_adopt a fun c hc => by rw [h₂.contains]; exact hlive hc,
        parent?_orphan_orphan h hab]
      show (if c ∈ d.children b then _ else _) = none
      rw [if_neg hcb]
      exact if_pos (.inl ((h a c).1 hc))
  rw [bind_of_ok htakeA, bind_of_ok htakeB, bind_of_ok hadoptA, hadoptB, exchange, hsame]

theorem swap_carries (h : d.WellFormed) : Carries d (swap a b) (d.swap a b) := by
  refine .check rfl fun _ ha => .check rfl fun _ hb => .check rfl fun p hp => .check rfl fun q hq =>
    .ite (fun _ => .unchanged h) fun hab =>
      .look (either_isAncestorOrSelf_eq h.linked a b) (fun _ => .refuse _) fun _ => ?_
  rw [requireKind_eq_ok, ← isElement_iff] at ha hb
  rw [requireParent_eq_ok] at hp hq
  have hca := contains_of_isElement ha
  have hcb := contains_of_isElement hb
  have hrel := relinked_cross d a b p q
  have hfinal := hrel.trans (relinked_exchange _ a b)
  refine ⟨?_, h.relink hfinal (h.linked.swapped hp hq hab ha hb)⟩
  have hputA : changeChildren p (setAt (d.offset a) b) d = .ok () (d.putChild p (d.offset a) b) :=
    changeChildren_of_some (h.linked.contains_parent hp) (setAt_of_parent? h.linked hp b)
  have h₁ := Relinked.putChild d p (d.offset a) b
  have hputB : changeChildren q (setAt (d.offset b) a) (d.putChild p (d.offset a) b) =
      .ok () ((d.putChild p (d.offset a) b).putChild q (d.offset b) a) := by
    refine changeChildren_of_some ?_ (setAt_putChild h.linked hp hq)
    rw [h₁.contains]; exact h.linked.contains_parent hq
  have h₂ := h₁.trans (Relinked.putChild _ q (d.offset b) a)
  have hupA : change a (fun node => { node with parent? := some q })
      ((d.putChild p (d.offset a) b).putChild q (d.offset b) a) =
      .ok () (((d.putChild p (d.offset a) b).putChild q (d.offset b) a).setParent a (some q)) := by
    refine change_of_contains ?_ _
    rw [h₂.contains]; exact hca
  have h₃ := h₂.trans (Relinked.setParent _ a (some q))
  have hupB : change b (fun node => { node with parent? := some p })
      (((d.putChild p (d.offset a) b).putChild q (d.offset b) a).setParent a (some q)) =
      .ok () (d.cross a b p q) := by
    refine change_of_contains ?_ _
    rw [h₃.contains]; exact hcb
  rw [get_bind, get_bind, bind_of_ok hputA, bind_of_ok hputB, bind_of_ok hupA, bind_of_ok hupB]
  refine exchange_eq (fun _ _ => mem_children_cross h.linked hp hq) (fun x => ?_) ?_ ?_ hab
  · rw [children_cross h.linked hp hq]
    exact (h.linked.forest.nodup x).map (Equiv.injective _)
  · rw [hrel.contains]; exact hca
  · rw [hrel.contains]; exact hcb

end MarkupTree.InPlace
