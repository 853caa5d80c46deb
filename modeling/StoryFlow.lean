import StoryFlow.Analysis
import StoryFlow.Assignment.Facts
import StoryFlow.Assignment.Rules
import StoryFlow.Calls.CallGraph
import StoryFlow.Calls.Program
import StoryFlow.Closure
import StoryFlow.Command.Arguments
import StoryFlow.Command.Dump
import StoryFlow.Command.Help
import StoryFlow.Command.Run
import StoryFlow.Command.Slot
import StoryFlow.Command.Transcript
import StoryFlow.Config.Binding
import StoryFlow.Config.Decoder
import StoryFlow.Config.Reader
import StoryFlow.Config.Reading
import StoryFlow.Config.Story
import StoryFlow.Config.TreeDecoder
import StoryFlow.Defect
import StoryFlow.Diagnostic
import StoryFlow.Document.Block
import StoryFlow.Document.Cursor
import StoryFlow.Document.Datum
import StoryFlow.Document.Node
import StoryFlow.Document.Scalar
import StoryFlow.Document.Token
import StoryFlow.Document.Value
import StoryFlow.Failure
import StoryFlow.Files.Disk
import StoryFlow.Files.FileSystem
import StoryFlow.Files.Memory
import StoryFlow.Files.Path
import StoryFlow.Flow.Algebra
import StoryFlow.Flow.Graph
import StoryFlow.Flow.IdMap
import StoryFlow.Flow.Listing
import StoryFlow.Flow.Order
import StoryFlow.Flow.Supply
import StoryFlow.Flow.Validate
import StoryFlow.Flow.Vertex
import StoryFlow.Flow.Visible
import StoryFlow.Flow.Walk
import StoryFlow.Loading
import StoryFlow.Main
import StoryFlow.Names
import StoryFlow.Note
import StoryFlow.Part
import StoryFlow.Proofs.Flow.Composition
import StoryFlow.Proofs.Flow.Copy
import StoryFlow.Proofs.Flow.Lookup
import StoryFlow.Proofs.Flow.Path
import StoryFlow.Proofs.Flow.Substitution
import StoryFlow.Proofs.Flow.Words
import StoryFlow.Proofs.Scene.Meaning
import StoryFlow.Proofs.Story.Execution
import StoryFlow.Scene.Graph
import StoryFlow.Scene.Rules
import StoryFlow.Story.Stmt
import StoryFlow.Story.Walk
import StoryFlow.Symbols
import StoryFlow.Text.Blank
import StoryFlow.Text.Decimal
import StoryFlow.Text.Identifier
import StoryFlow.Text.Printable
import StoryFlow.Text.Quoted
import StoryFlow.Text.Separated
import StoryFlow.TextArea
import StoryFlow.TextArea.Reader
import StoryFlow.Proofs.Calls.Order
import StoryFlow.Proofs.Calls.Inlining
import StoryFlow.Proofs.Flow.Neighbors
import StoryFlow.Proofs.Flow.Order
import StoryFlow.Proofs.Assignment.History
import StoryFlow.Proofs.Assignment.Worklist
import StoryFlow.Proofs.Assignment.Fixpoint
import StoryFlow.Proofs.Calls.Runs
import StoryFlow.Proofs.Assignment.Safety
import StoryFlow.Proofs.Flow.Representation
import StoryFlow.Proofs.Flow.Loops
import StoryFlow.Proofs.Flow.Choice
import StoryFlow.Proofs.Scene.Shape
import StoryFlow.Proofs.Scene.Building
import StoryFlow.Proofs.Calls.Cycles
import StoryFlow.Proofs.Calls.Assembly
import StoryFlow.Proofs.Calls.Withholding
import StoryFlow.Proofs.Calls.Form
import StoryFlow.Proofs.Assignment.Recurrence
import StoryFlow.Proofs.Flow.Search
import StoryFlow.Proofs.Flow.View
import StoryFlow.Proofs.Scene.Vertices
import StoryFlow.Proofs.Config.Scenes
import StoryFlow.Proofs.Config.TreeDecoder
import StoryFlow.Proofs.Config.View
import StoryFlow.Proofs.Calls.Copies
import StoryFlow.Proofs.Calls.Provenance
import StoryFlow.Proofs.Calls.Visibility
import StoryFlow.Proofs.Calls.Context
import StoryFlow.Proofs.Assignment.Context
import StoryFlow.Proofs.Flow.Sequence
import StoryFlow.Proofs.Flow.Interchange
import StoryFlow.Proofs.Flow.Mirror
import StoryFlow.Proofs.Flow.Renumbering
import StoryFlow.Proofs.Calls.Walk
import StoryFlow.Proofs.Calls.Occurrences
import StoryFlow.Proofs.Scene.Coverage
import StoryFlow.Proofs.Scene.Numbering
import StoryFlow.Proofs.Flow.Sorting
import StoryFlow.Proofs.Story.Outline
import StoryFlow.Proofs.Scene.Endings
import StoryFlow.Proofs.Scene.Openings
import StoryFlow.Proofs.Scene.Layout
import StoryFlow.Proofs.Scene.Options
import StoryFlow.Proofs.Config.Positions
import StoryFlow.Proofs.Flow.Exploration
import StoryFlow.Proofs.Config.Bound
import StoryFlow.Proofs.Config.Reading
import StoryFlow.Proofs.Config.Known
