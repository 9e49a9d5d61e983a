import MarkupTree.Proofs.Document.Wrapped
import MarkupTree.Proofs.Lifetime

/-!
# What is in a document stays in it

An edit of the tree moves nodes and leaves alone what they hold, and what it takes out of its place
it leaves alive and without parent; only deletions, replacements and the merging of texts reclaim
nodes. An edit of contents moves nothing and leaves all other nodes alone. Nodes are made by
creations only, each as a node of its own that stands nowhere.
-/

namespace MarkupTree

namespace Command

open Document

variable {d e : Document} {c : Command} {x : NodeId}

/-- The nodes that an edit takes out of their places and leaves alive. -/
def dropped (d : Document) : Command → List NodeId
  | .detach n | .unwrap n => [n]
  | .clear n => d.children n
  | .wrap _ w => d.children w
  | _ => []

theorem parent?_dropped (h : d.WellFormed) (he : c.apply d = .ok e) (hx : x ∈ c.dropped d) :
    e.parent? x = none := by
  cases c with
  | detach n =>
    obtain ⟨-, rfl⟩ := detach_eq_ok.1 he
    rw [List.mem_singleton.1 hx]
    exact parent?_unlink_self d n
  | clear n =>
    obtain ⟨-, rfl⟩ := clear_eq_ok.1 he
    rw [parent?_orphan fun _ => h.linked.mem_children]
    exact if_pos (h.linked.mem_children.1 hx)
  | wrap n w => exact ((wrap_wrapped h he).dropped x hx).1
  | unwrap n =>
    rw [List.mem_singleton.1 hx]
    exact (unwrap_unwrapped h.linked he).parent?
  | _ => cases hx

theorem contains_of_mem_dropped (h : d.WellFormed) (he : c.apply d = .ok e)
    (hx : x ∈ c.dropped d) : d.contains x = true := by
  have hallowed := (apply_eq_ok_iff h c).1 ⟨e, he⟩
  cases c with
  | detach n | unwrap n =>
    exact hallowed.contains hx
  | clear n | wrap n w => exact h.linked.contains_child hx
  | _ => cases hx

/-- An edit of the tree that reclaims nothing keeps all nodes with what they hold. -/
theorem tree_kept (h : d.WellFormed) (htree : c.reworded? = none) (hc : ¬ c.Reclaiming)
    (he : c.apply d = .ok e) : Relinked d e ∧
      ∀ x ∈ c.dropped d, e.contains x = true ∧ e.parent? x = none := by
  have hrel := relinked_apply h.linked hc htree he
  refine ⟨hrel, fun x hx => ⟨?_, parent?_dropped h he hx⟩⟩
  rw [hrel.contains]
  exact contains_of_mem_dropped h he hx

theorem content_kept (h : d.WellFormed) (hc : c.reworded? = some x) (he : c.apply d = .ok e) :
    Reworded d x e ∧
      ∃ old new, d.content? x = some old ∧ e.content? x = some new ∧ c.Changes old new := by
  obtain ⟨old, new, hold, rfl, hchanges⟩ := exists_changes h hc he
  have hlive := contains_iff_content?.2 ⟨old, hold⟩
  exact ⟨.setContent d x new, old, new, hold, content?_setContent_self hlive new, hchanges⟩

end Command

namespace Document

variable {d e : Document} {x : NodeId} {c : Call}

/-- `e` is `d` with a new node `x`, which has no place and no children. -/
structure Created (d : Document) (x : NodeId) (e : Document) : Prop where
  fresh : d.contains x = false
  contains : e.contains x = true
  parent? : e.parent? x = none
  children_eq : e.children x = []
  others : ∀ y, y ≠ x → e.get? y = d.get? y

theorem WellFormed.created (h : d.WellFormed) (hc : c.issued? d = some x) :
    Created d x (c.after d) := by
  obtain ⟨hfresh, hlive⟩ := h.contains_issued hc
  obtain ⟨content, hafter, rfl⟩ := issued_eq hc
  have hget := h.stored.get?_alloc content
  rw [hafter] at hlive ⊢
  refine ⟨hfresh, hlive, h.parent?_new content, ?_, fun y hy => ?_⟩
  · rw [children_eq_getD, hget, if_pos rfl]
    rfl
  · rw [hget, if_neg hy]

/-- A handle that is live after a call and was not before is the one that the call has returned. -/
theorem WellFormed.issued_of_fresh (h : d.WellFormed) (hx : d.contains x = false)
    (hlive : (c.after d).contains x = true) : c.issued? d = some x := by
  rw [Bool.eq_false_iff, ne_eq] at hx
  rcases c.cases d with ⟨content, -, hafter, hissued⟩ | ⟨command, rfl⟩
  · rw [hafter, contains_alloc h.stored] at hlive
    rw [hissued, hlive.resolve_right hx]
  · exfalso
    rcases after_edit h command with hsame | happly
    · exact hx (hsame ▸ hlive)
    · exact hx ((Command.thinned_apply h happly).contains hlive)

/-- Edits of the tree that reclaim nothing keep all nodes and what they hold, and leave alive what
they take out of its place. Edits of contents keep all links, all nodes and what the others hold,
and change what they are about. Only a creation makes a node, a new one that stands nowhere. -/
theorem content_conserved (h : Reachable d) :
    (∀ (c : Command) e, c.reworded? = none → ¬ c.Reclaiming → c.apply d = .ok e →
      (∀ x, e.contains x = d.contains x ∧ e.content? x = d.content? x) ∧
        ∀ x ∈ c.dropped d, e.contains x = true ∧ e.parent? x = none) ∧
    (∀ (c : Command) x e, c.reworded? = some x → c.apply d = .ok e →
      (∀ y, e.contains y = d.contains y ∧ e.parent? y = d.parent? y ∧
        e.children y = d.children y) ∧
      (∀ y, y ≠ x → e.content? y = d.content? y) ∧
        ∃ old new, d.content? x = some old ∧ e.content? x = some new ∧ c.Changes old new) ∧
    (∀ (c : Call) x, d.contains x = false → (c.after d).contains x = true →
      c.issued? d = some x) ∧
    ∀ (c : Call) x, c.issued? d = some x → Created d x (c.after d) := by
  have hw := wellFormed_of_reachable h
  refine ⟨fun c e htree hc he => ?_, fun c x e hc he => ?_,
    fun c x => hw.issued_of_fresh, fun c x => hw.created⟩
  · obtain ⟨hrel, hdropped⟩ := Command.tree_kept hw htree hc he
    exact ⟨fun x => ⟨hrel.contains x, hrel.content? x⟩, hdropped⟩
  · obtain ⟨hrew, hown⟩ := Command.content_kept hw hc he
    exact ⟨fun y => ⟨hrew.contains y, congrFun hrew.parent? y, congrFun hrew.children y⟩,
      hrew.content?, hown⟩

/-- The text of a cleared element is still there, and so is what the element holds; its class list
can grow, and a text that is made stands beside nothing. -/
theorem content_conserved_cleared : ∃ d e f : Document,
    d.children ⟨1, 0⟩ = [⟨2, 0⟩] ∧ (Command.clear ⟨1, 0⟩).apply d = .ok e ∧
      e.contains ⟨2, 0⟩ = true ∧ e.parent? ⟨2, 0⟩ = none ∧
      e.content? ⟨1, 0⟩ = d.content? ⟨1, 0⟩ ∧
      (Command.addClass ⟨1, 0⟩ "b").apply d = .ok f ∧ f.content? ⟨2, 0⟩ = d.content? ⟨2, 0⟩ ∧
      Created d ⟨3, 0⟩ (d.createText "t").1 := by
  obtain ⟨d, hd, hchildren, hissued, ⟨e, he⟩, f, hf⟩ : ∃ d : Document, Reachable d ∧
      d.children ⟨1, 0⟩ = [⟨2, 0⟩] ∧ (Call.createText "t").issued? d = some ⟨3, 0⟩ ∧
        (∃ e, (Command.clear ⟨1, 0⟩).apply d = .ok e) ∧
          ∃ f, (Command.addClass ⟨1, 0⟩ "b").apply d = .ok f := by
    refine ⟨_, @Reachable.ofSignals .default [.startTag "p" [⟨"class", "a"⟩], .text "s",
      .endTag "p"] _ rfl, ?_, ?_, ?_, ?_⟩
    · decide +kernel
    · decide +kernel
    · exact ⟨_, rfl⟩
    · exact ⟨_, rfl⟩
  obtain ⟨htree, hcontent, -, hcreated⟩ := content_conserved hd
  obtain ⟨hkept, hdropped⟩ := htree (.clear ⟨1, 0⟩) e rfl id he
  have hmem : ⟨2, 0⟩ ∈ d.children ⟨1, 0⟩ := by rw [hchildren]; exact List.mem_singleton_self _
  obtain ⟨hlive, hup⟩ := hdropped ⟨2, 0⟩ hmem
  obtain ⟨-, hothers, -⟩ := hcontent (.addClass ⟨1, 0⟩ "b") ⟨1, 0⟩ f rfl hf
  exact ⟨d, e, f, hchildren, he, hlive, hup, (hkept ⟨1, 0⟩).2, hf, hothers ⟨2, 0⟩ (by decide),
    hcreated _ _ hissued⟩

end Document

end MarkupTree
