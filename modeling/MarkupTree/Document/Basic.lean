import MarkupTree.Node
import MarkupTree.Text.Lowercase

/-!
# Documents

A document keeps its nodes in slots. A slot holds at most one node and counts its reclamations in
its generation; reclaimed slots wait on a stack and are used again before a new slot is made.
The document is seen through `get?`, the node that a handle names.
-/

namespace MarkupTree

/-- A slot: how often it has been reclaimed, and the node in it. -/
structure Slot where
  generation : UInt32
  node? : Option Node
deriving DecidableEq, Repr

structure Document where
  slots : Array Slot
  /-- The reclaimed slots, the latest first. -/
  free : List Nat
  live : Nat
deriving DecidableEq, Repr

namespace Document

/-- The node named by a handle, unless the handle is stale. -/
def get? (d : Document) (id : NodeId) : Option Node :=
  match d.slots[id.index]? with
  | some slot => if slot.generation = id.generation then slot.node? else none
  | none => none

def contains (d : Document) (id : NodeId) : Bool := (d.get? id).isSome

/-- Changes the node named by a handle; a stale handle changes nothing. -/
def modify (d : Document) (id : NodeId) (f : Node → Node) : Document :=
  { d with slots := d.slots.modify id.index fun slot =>
      if slot.generation = id.generation then { slot with node? := slot.node?.map f } else slot }

/-- A node without links, in the slot reclaimed last or else in a new one. -/
def alloc (d : Document) (content : Content) : Document × NodeId :=
  match d.free with
  | index :: free =>
    ({ slots := d.slots.modify index fun slot => { slot with node? := some (.detached content) }
       free
       live := d.live + 1 },
      ⟨index, (d.slots[index]?.map (·.generation)).getD 0⟩)
  | [] =>
    ({ d with slots := d.slots.push ⟨0, some (.detached content)⟩, live := d.live + 1 },
      ⟨d.slots.size, 0⟩)

/-- Reclaims the slot of one node; its handle goes stale. -/
def release (d : Document) (id : NodeId) : Document :=
  { slots := d.slots.modify id.index fun slot => ⟨slot.generation + 1, none⟩
    free := id.index :: d.free
    live := d.live - 1 }

/-- The document that holds its document node only. -/
def new : Document := ((⟨#[], [], 0⟩ : Document).alloc .document).1

/-- A detached element. Its name is put in lower case, and of attributes with one name the first
is kept. -/
def createElement (d : Document) (name : String) (attributes : List Attribute) :
    Document × NodeId :=
  d.alloc (.element (Text.lower name) (Attribute.keepFirst attributes))

def createText (d : Document) (text : String) : Document × NodeId := d.alloc (.text text)

def createDocument (d : Document) : Document × NodeId := d.alloc .document

/-- The number of nodes, attached or not, the document node included. -/
def size (d : Document) : Nat := d.live

def isEmpty (d : Document) : Bool := d.live ≤ 1

/-- The handles of all nodes, by slot. -/
def handles (d : Document) : List NodeId :=
  d.slots.toList.zipIdx.filterMap fun (slot, index) =>
    slot.node?.map fun _ => ⟨index, slot.generation⟩

/-- The parent of a node; stale handles have none. -/
def parent? (d : Document) (id : NodeId) : Option NodeId := (d.get? id).bind (·.parent?)

def children (d : Document) (id : NodeId) : List NodeId :=
  match d.get? id with
  | some node => node.children
  | none => []

def content? (d : Document) (id : NodeId) : Option Content := (d.get? id).map (·.content)

def kind? (d : Document) (id : NodeId) : Option Kind := (d.content? id).map (·.kind)

def isElement (d : Document) (id : NodeId) : Bool := d.kind? id == some .element

def isText (d : Document) (id : NodeId) : Bool := d.kind? id == some .text

def isDocument (d : Document) (id : NodeId) : Bool := d.kind? id == some .document

def name? (d : Document) (id : NodeId) : Option String := (d.content? id).bind (·.name?)

def text? (d : Document) (id : NodeId) : Option String := (d.content? id).bind (·.text?)

/-- The attributes of an element; other nodes have none. -/
def attributes (d : Document) (id : NodeId) : List Attribute :=
  match d.content? id with
  | some content => content.attributes
  | none => []

def attribute? (d : Document) (id : NodeId) (name : String) : Option String :=
  Attribute.lookup? name (d.attributes id)

theorem get?_modify_self (d : Document) (id : NodeId) (f : Node → Node) :
    (d.modify id f).get? id = (d.get? id).map f := by
  cases hs : d.slots[id.index]? with
  | none => simp [get?, modify, Array.getElem?_modify, hs]
  | some slot =>
    by_cases hg : slot.generation = id.generation <;> simp [get?, modify, Array.getElem?_modify, hs, hg]

theorem get?_modify_of_ne {id id' : NodeId} (h : id' ≠ id) (d : Document) (f : Node → Node) :
    (d.modify id f).get? id' = d.get? id' := by
  cases hs : d.slots[id'.index]? with
  | none => simp [get?, modify, Array.getElem?_modify, hs]
  | some slot =>
    by_cases hi : id.index = id'.index
    · have hg : id.generation ≠ id'.generation := fun hg => h (by cases id; cases id'; simp_all)
      by_cases hs' : slot.generation = id.generation
      · simp [get?, modify, Array.getElem?_modify, hs, hi, hs', hg]
      · simp [get?, modify, Array.getElem?_modify, hs, hi, hs']
    · simp [get?, modify, Array.getElem?_modify, hs, hi]

theorem contains_iff {d : Document} {id : NodeId} :
    d.contains id = true ↔ ∃ node, d.get? id = some node := by
  simp [contains, Option.isSome_iff_exists]

theorem contains_modify (d : Document) (id id' : NodeId) (f : Node → Node) :
    (d.modify id f).contains id' = d.contains id' := by
  by_cases h : id' = id
  · subst h; simp [contains, get?_modify_self]
  · simp [contains, get?_modify_of_ne h]

theorem get?_release_self (d : Document) (id : NodeId) : (d.release id).get? id = none := by
  cases hs : d.slots[id.index]? <;> simp [get?, release, Array.getElem?_modify, hs]

theorem get?_release_of_ne {id id' : NodeId} (h : id'.index ≠ id.index) (d : Document) :
    (d.release id).get? id' = d.get? id' := by
  simp [get?, release, Array.getElem?_modify, h.symm]

theorem mem_handles {d : Document} {id : NodeId} : id ∈ d.handles ↔ d.contains id = true := by
  simp only [handles, List.mem_filterMap, Prod.exists, List.mem_zipIdx_iff_getElem?, contains, get?]
  constructor
  · rintro ⟨slot, index, hs, h⟩
    rw [Option.map_eq_some_iff] at h
    obtain ⟨node, hn, rfl⟩ := h
    simp_all
  · intro h
    cases hs : d.slots[id.index]? with
    | none => simp [hs] at h
    | some slot =>
      by_cases hg : slot.generation = id.generation
      · obtain ⟨node, hn⟩ := Option.isSome_iff_exists.1 (by simpa [hs, hg] using h)
        exact ⟨slot, id.index, by simpa using hs, by simp [hn, hg]⟩
      · simp [hs, hg] at h

end Document

end MarkupTree
