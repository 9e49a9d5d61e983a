import MarkupTree.Document.Content

/-!
# Merging texts

Normalizing a node leaves no empty text below it and no two texts side by side: each run of texts
among the children of one node becomes its first text that is not empty.
-/

namespace MarkupTree.Document

/-- Goes through detached children from one on. `kept` are the children kept so far, the last one
first. An empty text is reclaimed, a text after a kept text is added to it and reclaimed, all other
nodes are kept. -/
def mergeTexts (d : Document) (kept : List NodeId) : List NodeId → Document × List NodeId
  | [] => (d, kept.reverse)
  | child :: rest =>
    match d.text? child with
    | none => d.mergeTexts (child :: kept) rest
    | some text =>
      if text.isEmpty then (d.reclaim child).mergeTexts kept rest
      else match kept with
        | [] => d.mergeTexts [child] rest
        | last :: _ =>
          match d.text? last with
          | some run => ((d.setContent last (.text (run ++ text))).reclaim child).mergeTexts kept rest
          | none => d.mergeTexts (child :: kept) rest

/-- Merges the texts among the children of one node. -/
def normalizeOne (d : Document) (id : NodeId) : Document :=
  let (d, kept) := (d.orphan id).mergeTexts [] (d.children id)
  d.adopt id kept

def normalize (d : Document) (node : NodeId) : Except EditError Document := do
  let _ ← d.require node
  let containers := (node :: d.descendants node).filter fun id => !d.isText id
  return containers.foldl normalizeOne d

end MarkupTree.Document
