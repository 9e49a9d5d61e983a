import MarkupTree.Proofs.Tree.Grown
import Mathlib.Data.List.Chain

/-!
# The right spine

A node that is put behind the children of a node on the right spine of the tree comes last in
document order. So in a document that grows there only, and loses nothing, document order is the
order in which the nodes were made.
-/

namespace MarkupTree.Document

variable {d e : Document} {x y p a : NodeId} {c : Content}

/-- `x` is the last child of `p`. -/
def LastChild (d : Document) (x p : NodeId) : Prop := (d.children p).getLast? = some x

theorem LastChild.exists_children (h : d.LastChild x p) : ∃ before, d.children p = before ++ [x] :=
  List.getLast?_eq_some_iff.1 h

namespace Linked

theorem parent?_of_lastChild (h : d.Linked) (hx : d.LastChild x p) : d.parent? x = some p :=
  h.mem_children.1 (List.mem_of_getLast? hx)

/-- Going up a spine never comes back. -/
theorem not_mem_of_spine (h : d.Linked) {spine : List NodeId}
    (hspine : (x :: spine).IsChain d.LastChild) : x ∉ spine := by
  intro hx
  have hup : (x :: spine).Pairwise (Relation.TransGen fun y q => d.parent? y = some q) :=
    List.isChain_iff_pairwise.1 (hspine.imp fun _ _ hy => .single (h.parent?_of_lastChild hy))
  exact h.forest.grounded.not_passes_self x (List.rel_of_pairwise_cons hup hx)

end Linked

namespace Added

variable (h : Added d e p c x)
include h

/-- Nothing changes below a node that has `p` neither as itself nor below it. -/
theorem descendants_of_not (hd : d.Linked) (he : e.Linked) (hy : ¬ Reaches d.parent? p y) :
    e.descendants y = d.descendants y := by
  refine hd.descendants_congr he fun z hz => ?_
  have hzp : z ≠ p := fun hzp => hy (hzp ▸ hd.mem_cons_descendants.1 hz)
  rw [h.children, Function.update_of_ne hzp]

theorem children_new (hp : d.contains p = true) : e.children x = [] := by
  have hxp : x ≠ p := fun hxp => h.fresh (hxp ▸ hp)
  rw [h.children, Function.update_of_ne hxp, children_of_stale h.fresh]

/-- Where `p` is met going down through last children only, the new node comes last of all. -/
theorem descendants_of_spine (hd : d.Linked) (he : e.Linked) (hp : d.contains p = true)
    (ha : Relation.ReflTransGen d.LastChild p a) :
    e.descendants a = d.descendants a ++ [x] := by
  have hflat : ∀ {cs : List NodeId}, (∀ c ∈ cs, ¬ Reaches d.parent? p c) →
      cs.flatMap (fun c => c :: e.descendants c) = cs.flatMap fun c => c :: d.descendants c :=
    fun hcs => List.flatMap_congr fun c hc => by rw [h.descendants_of_not hd he (hcs c hc)]
  induction ha with
  | refl =>
    have hchildren : ∀ c ∈ d.children p, ¬ Reaches d.parent? p c := fun c hc =>
      hd.forest.grounded.not_reaches_of_passes (.single (hd.mem_children.1 hc))
    rw [he.descendants_eq_flatMap, h.children, Function.update_self, List.flatMap_append,
      hflat hchildren, ← hd.descendants_eq_flatMap, List.flatMap_singleton,
      he.descendants_eq_flatMap x, h.children_new hp]
    rfl
  | @tail y z hpy hyz ih =>
    obtain ⟨before, hbefore⟩ := hyz.exists_children
    have hyup := hd.parent?_of_lastChild hyz
    have hup : Reaches d.parent? p y :=
      Relation.ReflTransGen.mono (fun _ _ => hd.parent?_of_lastChild) _ _ hpy
    have hzp : z ≠ p := fun hzp =>
      hd.forest.grounded.not_passes_self z (Relation.TransGen.tail' (hzp ▸ hup) hyup)
    -- The other children of `z` do not have `p` below them, since `y` has.
    have hothers : ∀ c ∈ before, ¬ Reaches d.parent? p c := by
      intro c hc hpc
      have hcup : d.parent? c = some z :=
        hd.mem_children.1 (hbefore ▸ List.mem_append_left _ hc)
      have hcy := hd.eq_of_reaches_children hcup hyup hpc hup
      have hnd := hbefore ▸ hd.forest.nodup z
      exact List.disjoint_of_nodup_append hnd hc (hcy ▸ List.mem_singleton_self y)
    rw [he.descendants_eq_flatMap, h.children, Function.update_of_ne hzp, hbefore,
      List.flatMap_append, List.flatMap_singleton, hflat hothers, ih,
      hd.descendants_eq_flatMap z, hbefore, List.flatMap_append, List.flatMap_singleton,
      List.append_assoc, List.cons_append]

/-- The new node is the lowest node of the spine that leads up from it. -/
theorem spine_cons (hd : d.Linked) {spine : List NodeId}
    (hspine : (p :: spine).IsChain d.LastChild) : (x :: p :: spine).IsChain e.LastChild := by
  refine List.isChain_cons_cons.2 ⟨?_, hspine.imp_of_mem_tail_imp fun y z _ hz hyz => ?_⟩
  · rw [LastChild, h.children, Function.update_self, List.getLast?_concat]
  · have hzp : z ≠ p := fun hzp => hd.not_mem_of_spine hspine (hzp ▸ hz)
    rw [LastChild, h.children, Function.update_of_ne hzp]
    exact hyz

end Added

/-- The nodes stand in the order in which they were made, and `spine` leads up to the document node
through last children. -/
structure Grows (d : Document) (spine : List NodeId) : Prop where
  top : spine.getLast? = some .root
  spine : spine.IsChain d.LastChild
  free : d.free = []
  size : d.size = d.slots.size
  order : .root :: d.descendants .root = (List.range d.slots.size).map fun i => ⟨i, 0⟩
  attached : ∀ x, d.contains x = true → x ∈ .root :: d.descendants .root

namespace Grows

variable {spine : List NodeId}

theorem new : Grows .new [.root] where
  top := rfl
  spine := List.isChain_singleton _
  free := rfl
  size := rfl
  order := rfl
  attached x hx := by
    rw [contains, get?_new] at hx
    split at hx
    · exact ‹x = .root› ▸ List.mem_cons_self
    · cases hx

/-- The spine from a node further up on. -/
theorem drop (h : d.Grows spine) {n : Nat} (hn : n < spine.length) : d.Grows (spine.drop n) :=
  { h with
    top := by rw [List.getLast?_drop, if_neg (by omega), h.top]
    spine := h.spine.drop n }

theorem contains_iff (h : d.Grows spine) (hw : d.WellFormed) :
    d.contains x = true ↔ x.index < d.size ∧ x.generation = 0 := by
  have hmem : x ∈ .root :: d.descendants .root ↔ x.index < d.size ∧ x.generation = 0 := by
    rw [h.order, h.size, List.mem_map]
    constructor
    · rintro ⟨i, hi, rfl⟩
      exact ⟨List.mem_range.1 hi, rfl⟩
    · rintro ⟨hi, hg⟩
      exact ⟨x.index, List.mem_range.2 hi, by cases x; simp_all⟩
  rw [← hmem]
  refine ⟨h.attached x, fun hx => ?_⟩
  rcases List.mem_cons.1 hx with rfl | hx
  · exact hw.contains_root
  · exact hw.linked.contains_of_mem_descendants hx

theorem grow (h : d.Grows (p :: spine)) (hw : d.WellFormed) (hp : d.contains p = true)
    (htext : ¬ d.isText p = true) (hc : c.kind ≠ .document) (hs : c.Spelled) :
    ((d.alloc c).1.linkLast p (d.alloc c).2).Grows ((d.alloc c).2 :: p :: spine) := by
  have hadded := hw.stored.added hp c
  have hwe : ((d.alloc c).1.linkLast p (d.alloc c).2).WellFormed :=
    (hw.alloc hs).linkLast (hw.insertable_alloc hp htext hc) (hw.parent?_new c)
  have hr := Relinked.linkLast (d.alloc c).1 p (d.alloc c).2
  have hdown : Relation.ReflTransGen d.LastChild p .root :=
    List.relationReflTransGen_of_exists_isChain_cons spine h.spine
      (Option.some.inj (List.getLast?_eq_some_getLast _ ▸ h.top))
  have hdescendants := hadded.descendants_of_spine hw.linked hwe.linked hp hdown
  have halloc := alloc_of_nil h.free c
  have hnew : (d.alloc c).2 = ⟨d.slots.size, 0⟩ := by rw [halloc]
  have hslots : ((d.alloc c).1.linkLast p (d.alloc c).2).slots.size = d.slots.size + 1 := by
    rw [← size_skeleton, hr.skeleton, size_skeleton, halloc]
    exact Array.size_push _
  refine ⟨?_, hadded.spine_cons hw.linked h.spine, ?_, ?_, ?_, fun x hx => ?_⟩
  · rw [List.getLast?_cons_cons, h.top]
  · rw [hr.free, halloc]
    exact h.free
  · rw [hslots, Document.size, hr.live, halloc]
    exact congrArg (· + 1) h.size
  · rw [hslots, List.range_succ, List.map_append, ← h.order, hdescendants, hnew]
    rfl
  · rw [hdescendants, ← List.cons_append]
    rw [hr.contains, contains_alloc hw.stored] at hx
    rcases hx with rfl | hx
    · exact List.mem_append_right _ (List.mem_singleton_self _)
    · exact List.mem_append_left _ (h.attached x hx)

end Grows

end MarkupTree.Document
