import MarkupTree.Document.InPlace

/-!
# Commands

All edits of a document, as data: what an edit makes of a document, and its run in place.
-/

namespace MarkupTree

inductive Command where
  | append (parent node : NodeId)
  | prepend (parent node : NodeId)
  | insertAt (k : Int) (parent node : NodeId)
  | insertBefore (node new : NodeId)
  | insertAfter (node new : NodeId)
  | detach (node : NodeId)
  | delete (node : NodeId)
  | clear (node : NodeId)
  | replace (node new : NodeId)
  | swap (a b : NodeId)
  | wrap (node element : NodeId)
  | unwrap (node : NodeId)
  | normalize (node : NodeId)
  | setAttribute (element : NodeId) (name value : String)
  | deleteAttribute (element : NodeId) (name : String)
  | addClass (element : NodeId) (token : String)
  | removeClass (element : NodeId) (token : String)
  | rename (element : NodeId) (name : String)
  | setText (node : NodeId) (text : String)
deriving DecidableEq, Repr

namespace Command

/-- The document after an edit, or the reason why there is none. -/
def apply (d : Document) : Command → Except EditError Document
  | .append parent node => d.append parent node
  | .prepend parent node => d.prepend parent node
  | .insertAt k parent node => d.insertAt k parent node
  | .insertBefore node new => d.insertBefore node new
  | .insertAfter node new => d.insertAfter node new
  | .detach node => d.detach node
  | .delete node => d.delete node
  | .clear node => d.clear node
  | .replace node new => d.replace node new
  | .swap a b => d.swap a b
  | .wrap node element => d.wrap node element
  | .unwrap node => d.unwrap node
  | .normalize node => d.normalize node
  | .setAttribute element name value => d.setAttribute element name value
  | .deleteAttribute element name => do return (← d.deleteAttribute element name).1
  | .addClass element token => d.addClass element token
  | .removeClass element token => d.removeClass element token
  | .rename element name => d.rename element name
  | .setText node text => d.setText node text

/-- The edit step by step, on the document itself. -/
def inPlace : Command → Run Unit
  | .append parent node => InPlace.append parent node
  | .prepend parent node => InPlace.prepend parent node
  | .insertAt k parent node => InPlace.insertAt k parent node
  | .insertBefore node new => InPlace.insertBeside node new 0 .insertBefore
  | .insertAfter node new => InPlace.insertBeside node new 1 .insertAfter
  | .detach node => InPlace.detach node
  | .delete node => InPlace.delete node
  | .clear node => InPlace.clear node
  | .replace node new => InPlace.replace node new
  | .swap a b => InPlace.swap a b
  | .wrap node element => InPlace.wrap node element
  | .unwrap node => InPlace.unwrap node
  | .normalize node => InPlace.normalize node
  | .setAttribute element name value => InPlace.setAttribute element name value
  | .deleteAttribute element name => InPlace.deleteAttribute element name
  | .addClass element token => InPlace.addClass element token
  | .removeClass element token => InPlace.removeClass element token
  | .rename element name => InPlace.rename element name
  | .setText node text => InPlace.setText node text

end Command

end MarkupTree
