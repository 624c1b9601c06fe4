import BlockCalculus.Block
import BlockCalculus.Block.Arity
import BlockCalculus.Block.Edit
import BlockCalculus.Block.Listing
import BlockCalculus.Block.Spread
import BlockCalculus.Build
import BlockCalculus.Catalog
import BlockCalculus.Command.Inputs
import BlockCalculus.Command.Options
import BlockCalculus.Command.Report
import BlockCalculus.Command.Run
import BlockCalculus.Command.Switch
import BlockCalculus.Command.Word
import BlockCalculus.Controller
import BlockCalculus.Controller.Run
import BlockCalculus.Controller.Scene
import BlockCalculus.Document.Check
import BlockCalculus.Document.Codec
import BlockCalculus.Document.Finding
import BlockCalculus.Document.Library
import BlockCalculus.Document.State
import BlockCalculus.Document.Survey
import BlockCalculus.Evaluation
import BlockCalculus.Evaluation.Error
import BlockCalculus.Evaluation.Journal
import BlockCalculus.Evaluation.Rule
import BlockCalculus.Evaluation.Walk
import BlockCalculus.Fault
import BlockCalculus.Files
import BlockCalculus.Json
import BlockCalculus.Json.Reader
import BlockCalculus.Kind
import BlockCalculus.Main
import BlockCalculus.Nesting
import BlockCalculus.Number.Binary64
import BlockCalculus.Proofs.Bounds
import BlockCalculus.Proofs.Calls
import BlockCalculus.Proofs.Checked
import BlockCalculus.Proofs.Comparison
import BlockCalculus.Proofs.Definition
import BlockCalculus.Proofs.Desk
import BlockCalculus.Proofs.Editing
import BlockCalculus.Proofs.Grammar
import BlockCalculus.Proofs.Halt
import BlockCalculus.Proofs.History
import BlockCalculus.Proofs.Ids
import BlockCalculus.Proofs.Isolation
import BlockCalculus.Proofs.Kleene
import BlockCalculus.Proofs.Layout
import BlockCalculus.Proofs.Lifecycle
import BlockCalculus.Proofs.Likeness
import BlockCalculus.Proofs.Live
import BlockCalculus.Proofs.Loading
import BlockCalculus.Proofs.Matching
import BlockCalculus.Proofs.Mirror
import BlockCalculus.Proofs.Numbering
import BlockCalculus.Proofs.Observed
import BlockCalculus.Proofs.Opening
import BlockCalculus.Proofs.Pace
import BlockCalculus.Proofs.Pauses
import BlockCalculus.Proofs.Played
import BlockCalculus.Proofs.Reload
import BlockCalculus.Proofs.Requests
import BlockCalculus.Proofs.RoundTrip
import BlockCalculus.Proofs.Session
import BlockCalculus.Proofs.Simulation
import BlockCalculus.Proofs.Stage
import BlockCalculus.Proofs.Stepped
import BlockCalculus.Proofs.Strict
import BlockCalculus.Proofs.Termination
import BlockCalculus.Proofs.Trace
import BlockCalculus.Proofs.Tree
import BlockCalculus.Proofs.Twins
import BlockCalculus.Proofs.Walk
import BlockCalculus.Text.Blank
import BlockCalculus.Text.Digit
import BlockCalculus.Text.Integer
import BlockCalculus.Text.Numeral
import BlockCalculus.Text.Printable
import BlockCalculus.Text.Quoted
import BlockCalculus.Text.Utf8
import BlockCalculus.Validation
import BlockCalculus.Proofs.PostOrder
import BlockCalculus.Proofs.Interruption
import BlockCalculus.Proofs.Reuse
import BlockCalculus.Proofs.Natural
import BlockCalculus.Proofs.Resizing
import BlockCalculus.Proofs.Spine
import BlockCalculus.Proofs.Classics
import BlockCalculus.Proofs.Lacking
import BlockCalculus.Proofs.Wrapper
import BlockCalculus.Proofs.Fresh
import BlockCalculus.Proofs.Subtree
import BlockCalculus.Proofs.Propagation
import BlockCalculus.Proofs.Traversal
import BlockCalculus.Proofs.Removal
import BlockCalculus.Proofs.Decimal
import BlockCalculus.Proofs.Inputs
import BlockCalculus.Proofs.Bookkeeping
import BlockCalculus.Proofs.Whereabouts
