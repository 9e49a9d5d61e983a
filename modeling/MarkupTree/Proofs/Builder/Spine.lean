import MarkupTree.Builder.InPlace
import MarkupTree.Proofs.Builder.Repair
import MarkupTree.Proofs.Document.Spine
import MarkupTree.Proofs.Document.Steps

/-!
# What builders keep

A builder appends at the innermost open element and nowhere else, and the open elements are the
right spine of the tree. So the nodes stand in document order as they were made, whatever has been
closed, passed over or refused on the way. A refused signal changes nothing.
-/

namespace MarkupTree

open Document

/-! ### Steps in place -/

namespace BuildRun

open InPlace (bind_of_ok get_bind)

variable {b : Builder} {d : Document}

theorem onDocument_of_ok {α : Type} {m : Run α} {a : α} (h : m b.document = .ok a d) :
    onDocument m b = .ok a { b with document := d } := by
  rw [onDocument, h]

theorem create_bind {α : Type} (content : Content) (f : NodeId → BuildRun α) (b : Builder) :
    (create content >>= f) b =
      f (b.document.alloc content).2 { b with document := (b.document.alloc content).1 } := rfl

theorem findOpen_eq (name : String) : ∀ {ids : List NodeId},
    (∀ id ∈ ids, b.document.contains id = true) →
      findOpen name ids b = .ok (ids.findIdx? fun id => b.document.name? id == some name) b
  | [], _ => rfl
  | id :: ids, h => by
    obtain ⟨node, hnode⟩ := contains_iff.1 (h id List.mem_cons_self)
    have hname : b.document.name? id = node.content.name? := by
      simp [name?, content?, hnode]
    rw [findOpen, bind_of_ok (onDocument_of_ok (InPlace.fetch_of_get? hnode)), List.findIdx?_cons,
      hname]
    by_cases hn : node.content.name? = some name
    · rw [if_pos hn, if_pos (beq_iff_eq.2 hn)]
      rfl
    · rw [if_neg hn, if_neg (by simpa using hn),
        bind_of_ok (findOpen_eq name fun x hx => h x (List.mem_cons_of_mem id hx))]
      rfl

section
variable (h : b.Sound)
include h

theorem append_create (c : Content) :
    append (b.document.alloc c).2 { b with document := (b.document.alloc c).1 } = .ok ()
      { b with
        document := (b.document.alloc c).1.linkLast b.current (b.document.alloc c).2 } := by
  have hs := h.wellFormed.stored
  have hp : (b.document.alloc c).1.contains b.current = true :=
    (contains_alloc hs c _).2 (.inr h.contains_current)
  have hx : (b.document.alloc c).1.contains (b.document.alloc c).2 = true :=
    (contains_alloc hs c _).2 (.inl rfl)
  rw [linkLast_eq]
  exact onDocument_of_ok (b := { b with document := (b.document.alloc c).1 })
    (InPlace.linkAt_of_detached hp hx (h.wellFormed.parent?_new c) _)

theorem close_eq (name : String) : close name b =
    match b.close name with
    | .ok b' => .ok () b'
    | .error cause => .error (.refused cause) b := by
  have hlive : ∀ id ∈ b.opened, b.document.contains id = true :=
    fun id hid => contains_of_isElement (h.opened id hid)
  rw [close, get_bind, bind_of_ok (findOpen_eq name hlive), Builder.close]
  cases b.opened.findIdx? fun id => b.document.name? id == some name with
  | none =>
    dsimp only
    rw [get_bind]
    split <;> rfl
  | some inner =>
    dsimp only
    rw [get_bind]
    split <;> rfl

/-- A signal in place is taken as it is taken, or it is refused and nothing has changed. -/
theorem push_eq (s : Signal) : push s b =
    match b.push s with
    | .ok b' => .ok () b'
    | .error cause => .error (.refused cause) b := by
  cases s with
  | startTag name as =>
    rw [push, get_bind, Builder.push]
    split
    · rfl
    · rw [create_bind, bind_of_ok (append_create h _)]
      rfl
  | endTag name => exact close_eq h (Text.lower name)
  | text s =>
    rw [push, get_bind, Builder.push]
    split
    · rfl
    · rw [create_bind, append_create h]
      rfl
  | comment | doctype | processingInstruction => rfl

end

end BuildRun

namespace Builder

variable {b b' : Builder} {s : Signal}

/-- All that a signal that is taken can do. -/
theorem push_cases (h : b.push s = .ok b') :
    (∃ count, b' = b.closeInner count) ∨
      (∃ name as, b.depth < b.config.maxDepth ∧ b' = b.openElement name as) ∨
      ∃ text, b' = b.addText text := by
  cases s with
  | startTag name as =>
    rw [push] at h
    split at h
    · cases h
    · cases h
      exact .inr (.inl ⟨name, as, by omega, rfl⟩)
  | endTag name =>
    rw [push, close] at h
    split at h <;> split at h <;> cases h
    · exact .inl ⟨0, rfl⟩
    · exact .inl ⟨_, rfl⟩
  | text text =>
    rw [push] at h
    split at h <;> cases h
    · exact .inl ⟨0, rfl⟩
    · exact .inr (.inr ⟨text, rfl⟩)
  | comment | doctype | processingInstruction =>
    cases h
    exact .inl ⟨0, rfl⟩

/-- Nothing is reclaimed. -/
theorem contains_push (h : b.Sound) (hb : b.push s = .ok b') {x : NodeId}
    (hx : b.document.contains x = true) : b'.document.contains x = true := by
  have hgrow : ∀ c, ((b.document.alloc c).1.linkLast b.current
      (b.document.alloc c).2).contains x = true := fun c =>
    (h.wellFormed.stored.added h.contains_current c).contains_of_contains hx
  rcases push_cases hb with ⟨count, rfl⟩ | ⟨name, as, -, rfl⟩ | ⟨text, rfl⟩
  · exact hx
  · exact hgrow _
  · exact hgrow _

/-- The open elements and the document node, the innermost first. -/
def spine (b : Builder) : List NodeId := b.opened ++ [.root]

theorem spine_eq (b : Builder) : b.spine = b.current :: b.spine.tail := by
  rw [spine, current]
  cases b.opened <;> rfl

theorem spine_closeInner (b : Builder) (count : Nat) :
    (b.closeInner count).spine = b.spine.drop (min count b.opened.length) := by
  rw [spine, closeInner, spine, List.drop_append_of_le_length (Nat.min_le_right _ _)]
  rcases Nat.le_total count b.opened.length with hle | hle
  · rw [Nat.min_eq_left hle]
  · rw [Nat.min_eq_right hle, List.drop_of_length_le hle, List.drop_length]

/-- The invariant of building. -/
structure Spined (b : Builder) : Prop where
  sound : b.Sound
  depth_le : b.depth ≤ b.config.maxDepth
  grows : b.document.Grows b.spine

namespace Spined

theorem new (config : Config) : (new config).Spined := ⟨sound_new config, Nat.zero_le _, .new⟩

theorem grow (h : b.Spined) {c : Content} (hc : c.kind ≠ .document) (hs : c.Spelled) :
    ((b.document.alloc c).1.linkLast b.current (b.document.alloc c).2).Grows
      ((b.document.alloc c).2 :: b.spine) := by
  have hgrows := b.spine_eq ▸ h.grows
  rw [b.spine_eq]
  exact hgrows.grow h.sound.wellFormed h.sound.contains_current h.sound.not_isText_current hc hs

theorem push (h : b.Spined) (hb : b.push s = .ok b') : b'.Spined := by
  have hsound := h.sound.push hb
  rcases push_cases hb with ⟨count, rfl⟩ | ⟨name, as, hlt, rfl⟩ | ⟨text, rfl⟩
  · refine ⟨hsound, ?_, ?_⟩
    · have hdepth := h.depth_le
      rw [depth, closeInner, List.length_drop]
      exact Nat.le_trans (Nat.sub_le _ _) hdepth
    · rw [spine_closeInner]
      refine h.grows.drop ?_
      rw [spine, List.length_append]
      exact Nat.lt_succ_of_le (Nat.min_le_right _ _)
  · exact ⟨hsound, hlt, h.grow (by simp [Content.kind]) (spelled_element name as)⟩
  · have hgrows := h.grow (c := .text text) (by simp [Content.kind]) trivial
    exact ⟨hsound, h.depth_le, hgrows.drop (n := 1) (by simp [spine])⟩

end Spined

theorem after_eq (h : b.Sound) (s : Signal) : b.after s =
    match b.push s with
    | .ok b' => b'
    | .error _ => b := by
  rw [after, BuildRun.push_eq h]
  cases b.push s <;> rfl

theorem Spined.after (h : b.Spined) (s : Signal) : (b.after s).Spined := by
  rw [after_eq h.sound]
  cases hb : b.push s with
  | ok b' => exact h.push hb
  | error => exact h

theorem config_after (h : b.Sound) (s : Signal) : (b.after s).config = b.config := by
  rw [after_eq h]
  cases hb : b.push s with
  | ok b' => exact config_push hb
  | error => rfl

theorem contains_after (h : b.Sound) (s : Signal) {x : NodeId}
    (hx : b.document.contains x = true) : (b.after s).document.contains x = true := by
  rw [after_eq h]
  cases hb : b.push s with
  | ok b' => exact contains_push h hb hx
  | error => exact hx

/-- What a run of signals keeps. -/
theorem Spined.foldl (h : b.Spined) (signals : List Signal) :
    (signals.foldl Builder.after b).Spined ∧
      (signals.foldl Builder.after b).config = b.config ∧
      ∀ x, b.document.contains x = true →
        (signals.foldl Builder.after b).document.contains x = true := by
  induction signals generalizing b with
  | nil => exact ⟨h, rfl, fun _ hx => hx⟩
  | cons s signals ih =>
    obtain ⟨hspined, hconfig, hlive⟩ := ih (h.after s)
    exact ⟨hspined, hconfig.trans (config_after h.sound s),
      fun x hx => hlive x (contains_after h.sound s hx)⟩

/-- What can be said of a builder at any time. -/
structure Built (config : Config) (b : Builder) : Prop where
  config_eq : b.config = config
  depth_le : b.depth ≤ config.maxDepth
  /-- From the outermost open element on, each is the last child of the one before. -/
  last : (.root :: b.opened.reverse).IsChain fun p x =>
    (b.document.children p).getLast? = some x
  elements : ∀ x ∈ b.opened, b.document.isElement x = true
  attached : ∀ x, b.document.contains x = true → x = .root ∨ x ∈ b.document.descendants .root
  live_iff : ∀ x, b.document.contains x = true ↔
    x.index < b.document.size ∧ x.generation = 0
  free : b.document.free = []
  order : b.document.descendants .root =
    (List.range' 1 (b.document.size - 1)).map fun i => ⟨i, 0⟩

theorem Spined.built (h : b.Spined) : b.Built b.config where
  config_eq := rfl
  depth_le := h.depth_le
  last := by
    rw [← List.reverse_concat, List.isChain_reverse]
    exact h.grows.spine
  elements := h.sound.opened
  attached x hx := List.mem_cons.1 (h.grows.attached x hx)
  live_iff _ := h.grows.contains_iff h.sound.wellFormed
  free := h.grows.free
  order := by
    have horder := h.grows.order
    rw [← h.grows.size] at horder
    cases hsize : b.document.size with
    | zero =>
      rw [hsize] at horder
      cases horder
    | succ k =>
      rw [hsize, List.range_eq_range', List.range'_succ, List.map_cons] at horder
      exact (List.cons.inj horder).2

/-- Whatever signals a builder is given, the next one is taken as it is taken or refused without a
trace, the open elements are the right spine, and the nodes stand in the order in which they were
made. What is there stays there under all signals to come. -/
theorem built_fed (config : Config) (signals : List Signal) :
    (fed config signals).Built config ∧
      (∀ s, (∃ b', (fed config signals).push s = .ok b' ∧
          BuildRun.push s (fed config signals) = .ok () b') ∨
        ∃ cause, (fed config signals).push s = .error cause ∧
          BuildRun.push s (fed config signals) = .error (.refused cause) (fed config signals)) ∧
      ∀ later x, (fed config signals).document.contains x = true →
        (fed config (signals ++ later)).document.contains x = true := by
  obtain ⟨hspined, hconfig, -⟩ := (Spined.new config).foldl signals
  have hpush : ∀ s, _ := BuildRun.push_eq (b := fed config signals) hspined.sound
  refine ⟨?_, fun s => ?_, fun later x hx => ?_⟩
  · have hbuilt := hspined.built
    rw [hconfig] at hbuilt
    exact hbuilt
  · cases hs : (fed config signals).push s with
    | ok b' => exact .inl ⟨b', rfl, by rw [hpush, hs]⟩
    | error cause => exact .inr ⟨cause, rfl, by rw [hpush, hs]⟩
  · rw [fed, List.foldl_append]
    exact (hspined.foldl later).2.2 x hx

end Builder

end MarkupTree
