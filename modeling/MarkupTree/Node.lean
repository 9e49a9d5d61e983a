import MarkupTree.Text.Tokens

/-!
# Nodes

A node of a document is named by a handle: the slot it lives in and the generation of that slot.
The handle outlives the node; once the slot has been reclaimed its generation has moved on and the
handle names nothing.
-/

namespace MarkupTree

/-- A handle. Generations are 32-bit words and wrap around. -/
structure NodeId where
  index : Nat
  generation : UInt32
deriving DecidableEq, Repr

namespace NodeId

/-- The handle of the document node that every document is born with. -/
def root : NodeId := ⟨0, 0⟩

/-- Slot and generation, such as `3v0`. -/
def text (id : NodeId) : String := s!"{id.index}v{id.generation.toNat}"

instance : ToString NodeId := ⟨text⟩

end NodeId

inductive Kind where
  | document
  | element
  | text
deriving DecidableEq, Repr

def Kind.name : Kind → String
  | .document => "document"
  | .element => "element"
  | .text => "text"

structure Attribute where
  name : String
  value : String
deriving DecidableEq, Repr

namespace Attribute

/-- The attributes without those whose name has occurred before. -/
def keepFirst : List Attribute → List Attribute
  | [] => []
  | a :: as => a :: (keepFirst as).filter (·.name != a.name)

def lookup? (name : String) (as : List Attribute) : Option String :=
  (as.find? (·.name == name)).map (·.value)

/-- A new value under a name, in place if the name is there and at the end if not. -/
def assign (name value : String) : List Attribute → List Attribute
  | [] => [⟨name, value⟩]
  | a :: as => if a.name = name then ⟨a.name, value⟩ :: as else a :: assign name value as

def erase (name : String) (as : List Attribute) : List Attribute :=
  as.eraseP (·.name == name)

theorem nodup_keepFirst : ∀ as : List Attribute, ((keepFirst as).map (·.name)).Nodup
  | [] => .nil
  | a :: as => by
    simpa [keepFirst] using (List.filter_sublist.map _).nodup (nodup_keepFirst as)

theorem keepFirst_of_nodup : ∀ {as : List Attribute}, (as.map (·.name)).Nodup → keepFirst as = as
  | [], _ => rfl
  | a :: as, h => by
    obtain ⟨ha, has⟩ := List.nodup_cons.1 (List.map_cons ▸ h)
    rw [keepFirst, keepFirst_of_nodup has, List.filter_eq_self.2]
    intro b hb
    rw [bne_iff_ne]
    exact fun e => ha (e ▸ List.mem_map_of_mem hb)

theorem lookup?_assign_self (name value : String) :
    ∀ as : List Attribute, lookup? name (assign name value as) = some value
  | [] => by simp [assign, lookup?]
  | a :: as => by
    have ih := lookup?_assign_self name value as
    by_cases h : a.name = name <;> simp_all [assign, lookup?]

end Attribute

/-- What a node holds besides its place in the tree. -/
inductive Content where
  | document
  | element (name : String) (attributes : List Attribute)
  | text (text : String)
deriving DecidableEq, Repr

namespace Content

def kind : Content → Kind
  | .document => .document
  | .element _ _ => .element
  | .text _ => .text

def name? : Content → Option String
  | .element name _ => some name
  | _ => none

/-- The attributes of an element; other nodes have none. -/
def attributes : Content → List Attribute
  | .element _ as => as
  | _ => []

def text? : Content → Option String
  | .text s => some s
  | _ => none

def attribute? (c : Content) (name : String) : Option String := Attribute.lookup? name c.attributes

end Content

structure Node where
  parent? : Option NodeId
  children : List NodeId
  content : Content
deriving DecidableEq, Repr

namespace Node

def detached (content : Content) : Node := ⟨none, [], content⟩

def kind (n : Node) : Kind := n.content.kind

end Node

end MarkupTree
