import MarkupTree.Builder
import MarkupTree.Builder.InPlace
import MarkupTree.Document.Axes
import MarkupTree.Document.Basic
import MarkupTree.Document.Command
import MarkupTree.Document.Content
import MarkupTree.Document.Cursor
import MarkupTree.Document.Edit
import MarkupTree.Document.EditError
import MarkupTree.Document.InPlace
import MarkupTree.Document.Links
import MarkupTree.Document.Normalize
import MarkupTree.Document.Outline
import MarkupTree.Document.Texts
import MarkupTree.Escape
import MarkupTree.Escape.Structured
import MarkupTree.Json.Reader
import MarkupTree.Json.Value
import MarkupTree.Json.Writer
import MarkupTree.Node
import MarkupTree.Proofs.Builder
import MarkupTree.Proofs.Builder.Repair
import MarkupTree.Proofs.Builder.Spine
import MarkupTree.Proofs.Conservation
import MarkupTree.Proofs.Document.Alike
import MarkupTree.Proofs.Document.Ancestry
import MarkupTree.Proofs.Document.Axes
import MarkupTree.Proofs.Document.Classes
import MarkupTree.Proofs.Document.Commands
import MarkupTree.Proofs.Document.Contents
import MarkupTree.Proofs.Document.Deleted
import MarkupTree.Proofs.Document.Frames
import MarkupTree.Proofs.Document.Insertions
import MarkupTree.Proofs.Document.Linked
import MarkupTree.Proofs.Document.Links
import MarkupTree.Proofs.Document.Merge
import MarkupTree.Proofs.Document.Merged
import MarkupTree.Proofs.Document.Moves
import MarkupTree.Proofs.Document.Normalized
import MarkupTree.Proofs.Document.Outcome
import MarkupTree.Proofs.Document.Reclaim
import MarkupTree.Proofs.Document.Replaced
import MarkupTree.Proofs.Document.Siblings
import MarkupTree.Proofs.Document.Spine
import MarkupTree.Proofs.Document.Steps
import MarkupTree.Proofs.Document.Store
import MarkupTree.Proofs.Document.Swap
import MarkupTree.Proofs.Document.TextRuns
import MarkupTree.Proofs.Document.Texts
import MarkupTree.Proofs.Document.Thinned
import MarkupTree.Proofs.Document.Transposed
import MarkupTree.Proofs.Document.TreeOrder
import MarkupTree.Proofs.Document.Walk
import MarkupTree.Proofs.Document.WellFormed
import MarkupTree.Proofs.Document.Wrapped
import MarkupTree.Proofs.Equality
import MarkupTree.Proofs.Equality.Seams
import MarkupTree.Proofs.Escape
import MarkupTree.Proofs.Forest
import MarkupTree.Proofs.Json
import MarkupTree.Proofs.Lifetime
import MarkupTree.Proofs.Player
import MarkupTree.Proofs.Reachable
import MarkupTree.Proofs.RoundTrip
import MarkupTree.Proofs.Selector.Appended
import MarkupTree.Proofs.Selector.Chains
import MarkupTree.Proofs.Selector.Complement
import MarkupTree.Proofs.Selector.Complete
import MarkupTree.Proofs.Selector.Correspondence
import MarkupTree.Proofs.Selector.Enclosed
import MarkupTree.Proofs.Selector.Errors
import MarkupTree.Proofs.Selector.Exact
import MarkupTree.Proofs.Selector.Formulas
import MarkupTree.Proofs.Selector.Grammar
import MarkupTree.Proofs.Selector.Mirrors
import MarkupTree.Proofs.Selector.Names
import MarkupTree.Proofs.Selector.Normalized
import MarkupTree.Proofs.Selector.Operators
import MarkupTree.Proofs.Selector.Parse
import MarkupTree.Proofs.Selector.Places
import MarkupTree.Proofs.Selector.Printer
import MarkupTree.Proofs.Selector.Reader
import MarkupTree.Proofs.Selector.Scanner
import MarkupTree.Proofs.Selector.Scope
import MarkupTree.Proofs.Selector.Selection
import MarkupTree.Proofs.Selector.Separators
import MarkupTree.Proofs.Selector.Sound
import MarkupTree.Proofs.Selector.WellFormed
import MarkupTree.Proofs.Sequence.History
import MarkupTree.Proofs.Sequence.Pipeline
import MarkupTree.Proofs.Signal.Canonical
import MarkupTree.Proofs.Signal.Decoding
import MarkupTree.Proofs.Signal.Json
import MarkupTree.Proofs.Signal.Repair
import MarkupTree.Proofs.Signal.Texts
import MarkupTree.Proofs.Text.LowerCase
import MarkupTree.Proofs.Text.Runs
import MarkupTree.Proofs.Text.Tokens
import MarkupTree.Proofs.Tree
import MarkupTree.Proofs.Tree.Form
import MarkupTree.Proofs.Tree.Grown
import MarkupTree.Proofs.Tree.Merged
import MarkupTree.Proofs.Tree.Prune
import MarkupTree.Proofs.Tree.Sorted
import MarkupTree.Selector.Basic
import MarkupTree.Selector.Grammar
import MarkupTree.Selector.Match
import MarkupTree.Selector.Names
import MarkupTree.Selector.Nth
import MarkupTree.Selector.Nth.Stepwise
import MarkupTree.Selector.Printer
import MarkupTree.Selector.Reader
import MarkupTree.Selector.Scanner
import MarkupTree.Selector.Selection
import MarkupTree.Selector.Syntax
import MarkupTree.Selector.SyntaxError
import MarkupTree.Sequence
import MarkupTree.Sequence.Items
import MarkupTree.Sequence.Numbers
import MarkupTree.Sequence.Walk
import MarkupTree.Signal
import MarkupTree.Signal.Canonical
import MarkupTree.Signal.Json
import MarkupTree.Signal.Player
import MarkupTree.Signal.Repair
import MarkupTree.Text.Blank
import MarkupTree.Text.Bytes
import MarkupTree.Text.CodePoints
import MarkupTree.Text.Digits
import MarkupTree.Text.Find
import MarkupTree.Text.Hidden
import MarkupTree.Text.LetterCase
import MarkupTree.Text.Lowercase
import MarkupTree.Text.Quoted
import MarkupTree.Text.Tokens
import MarkupTree.Tree
import MarkupTree.Tree.Depth
import MarkupTree.Tree.Equal
