import MarkupTree.Proofs.Document.Alike

/-!
# Equality of nodes

Two nodes are equal just if they are of one kind and have the same canonical signals. Hence equality
is an equivalence on the nodes of all documents that can be made, and so is equality up to white
space.
-/

namespace MarkupTree

/-- A node of a document that can be made. -/
structure LiveNode where
  document : Document
  reachable : Reachable document
  node : NodeId
  live : document.contains node = true

namespace LiveNode

instance : Inhabited LiveNode := ⟨⟨.new, .new, .root, rfl⟩⟩

def kind? (a : LiveNode) : Option Kind := a.document.kind? a.node

def signals (a : LiveNode) : List Signal := a.document.signals a.node

def Equal (a b : LiveNode) : Prop := a.document.equal a.node b.document b.node = true

def EqualModuloSpace (a b : LiveNode) : Prop :=
  a.document.equalModuloSpace a.node b.document b.node = true

/-- What equality asks of a node, if `f` is applied to every text first. -/
def key (f : String → String) (a : LiveNode) : Option Kind × List Signal :=
  (a.kind?, Signal.canonical (a.signals.map (Signal.mapText f)))

theorem exists_tree (a : LiveNode) : ∃ t, a.document.tree? a.node = some t ∧
    a.kind? = some t.kind ∧ a.signals = t.signals ∧ Tree.InnerList t.branches := by
  have hw := Document.wellFormed_of_reachable a.reachable
  obtain ⟨t, hs⟩ := hw.linked.exists_shows a.node a.live
  have ht := hs.tree?_eq hw.linked
  exact ⟨t, ht, hs.kind?_eq, by rw [signals, Document.signals, ht], hs.innerList_branches hw⟩

theorem equal_iff_key (a b : LiveNode) : a.Equal b ↔ a.key id = b.key id := by
  obtain ⟨t, ht, hkt, hst, hit⟩ := a.exists_tree
  obtain ⟨u, hu, hku, hsu, hiu⟩ := b.exists_tree
  rw [Equal, Document.equal, ht, hu, key, key, hkt, hku, hst, hsu, Prod.mk.injEq,
    Option.some.injEq]
  exact Tree.same_normal_iff_canonical hit hiu

theorem equalModuloSpace_iff_key (a b : LiveNode) :
    a.EqualModuloSpace b ↔ a.key Text.trim = b.key Text.trim := by
  obtain ⟨t, ht, hkt, hst, hit⟩ := a.exists_tree
  obtain ⟨u, hu, hku, hsu, hiu⟩ := b.exists_tree
  rw [EqualModuloSpace, Document.equalModuloSpace, ht, hu, key, key, hkt, hku, hst, hsu,
    Prod.mk.injEq, Option.some.injEq]
  exact Tree.same_normal_iff_canonical hit hiu

theorem equivalence_of_key {r : LiveNode → LiveNode → Prop} {f : String → String}
    (h : ∀ a b, r a b ↔ a.key f = b.key f) : Equivalence r := by
  have hr : r = Function.onFun (· = ·) (key f) := by
    funext a b
    exact propext (h a b)
  rw [hr]
  exact eq_equivalence.comap (key f)

/-- Nodes are equal just if they are of one kind and have the same canonical signals, and so if
every text is trimmed first. Both equalities are equivalences. -/
theorem equal_iff_canonical :
    (∀ a b : LiveNode, a.Equal b ↔
      a.kind? = b.kind? ∧ Signal.canonical a.signals = Signal.canonical b.signals) ∧
    (∀ a b : LiveNode, a.EqualModuloSpace b ↔ a.kind? = b.kind? ∧
      Signal.canonical (a.signals.map (Signal.mapText Text.trim)) =
        Signal.canonical (b.signals.map (Signal.mapText Text.trim))) ∧
    Equivalence Equal ∧ Equivalence EqualModuloSpace := by
  refine ⟨fun a b => ?_, fun a b => ?_, equivalence_of_key equal_iff_key,
    equivalence_of_key equalModuloSpace_iff_key⟩
  · rw [equal_iff_key, key, key, Signal.map_mapText_id, Signal.map_mapText_id, Prod.mk.injEq]
  · rw [equalModuloSpace_iff_key, key, key, Prod.mk.injEq]

end LiveNode

end MarkupTree
