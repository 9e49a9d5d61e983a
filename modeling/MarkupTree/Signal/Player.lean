import MarkupTree.Signal

/-!
# Playing a node back step by step

A player has a stack of frames. A step takes the topmost frame, gives a signal or none, and puts
what is to be played next in its place. The stack is empty when all is played.
-/

namespace MarkupTree

/-- A node that is still to be played, or an element that waits for its end tag. -/
inductive Frame where
  | enter (id : NodeId)
  | exit (id : NodeId)
deriving DecidableEq, Repr

/-- The signal that comes first of a node, and the frames for the rest of it. -/
def Content.enter (id : NodeId) (children : List NodeId) : Content → Option Signal × List Frame
  | .document => (none, children.map .enter)
  | .element name attributes => (some (.startTag name attributes), children.map .enter ++ [.exit id])
  | .text s => (some (.text s), [])

namespace Document

/-- The signal of a frame and the frames that take its place. -/
def playFrame (d : Document) : Frame → Option Signal × List Frame
  | .enter id =>
    match d.get? id with
    | some node => node.content.enter id node.children
    | none => (none, [])
  | .exit id => (some (.endTag ((d.name? id).getD "")), [])

/-- The signals of all steps until the stack is empty. -/
inductive Plays (d : Document) : List Frame → List Signal → Prop
  | done : Plays d [] []
  | step {f : Frame} {stack : List Frame} {signals : List Signal}
      (h : Plays d ((d.playFrame f).2 ++ stack) signals) :
      Plays d (f :: stack) ((d.playFrame f).1.toList ++ signals)

end Document

end MarkupTree
