import CodeEditing.Lexing.LineCache
import CodeEditing.Mode.Coffee
import CodeEditing.Worker.Exchange
import CodeEditing.Main
import CodeEditing.Proofs.Lexing.Build
import CodeEditing.Proofs.Lexing.Incremental
import CodeEditing.Proofs.Lexing.Tiling
import CodeEditing.Proofs.Document.Forms
import CodeEditing.Proofs.Document.Replay
import CodeEditing.Proofs.Worker.Live
import CodeEditing.Proofs.Worker.Numbers
import CodeEditing.Proofs.Worker.Tended
import CodeEditing.Proofs.Worker.Mirror
import CodeEditing.Proofs.Pattern.Takes
import CodeEditing.Proofs.Pattern.Ways
import CodeEditing.Proofs.Pattern.Search
import CodeEditing.Proofs.Lint.Nested
import CodeEditing.Proofs.Lint.Parameters
import CodeEditing.Proofs.Lint.Rules
import CodeEditing.Proofs.Lexing.CoffeeTable
import CodeEditing.Proofs.Lint.Plain
import CodeEditing.Proofs.Lexing.Seams
import CodeEditing.Proofs.Worker.Pumping
import CodeEditing.Proofs.Worker.Steps
import CodeEditing.Proofs.Worker.Remarks
import CodeEditing.Proofs.Worker.Answers
import CodeEditing.Proofs.Json.Scalars
import CodeEditing.Proofs.Json.ReadBack
import CodeEditing.Proofs.Worker.Wire
import CodeEditing.Proofs.Worker.Bursts
import CodeEditing.Proofs.Worker.Life
import CodeEditing.Proofs.Worker.Phases
import CodeEditing.Proofs.Worker.Forwarding
import CodeEditing.Proofs.Worker.Callbacks
import CodeEditing.Proofs.Document.Use
import CodeEditing.Proofs.Document.FlatText
import CodeEditing.Proofs.Document.Returns
import CodeEditing.Proofs.Text.Bounds
import CodeEditing.Proofs.Document.Bounds
import CodeEditing.Proofs.Lexing.Bounds
import CodeEditing.Proofs.Lint.Bounds
import CodeEditing.Proofs.Worker.Bounds
import CodeEditing.Proofs.Worker.Service
import CodeEditing.Proofs.Document.Undo
import CodeEditing.Proofs.Document.Cells
import CodeEditing.Proofs.Document.Partners
import CodeEditing.Proofs.Document.Borders
import CodeEditing.Proofs.Lint.Tokens
import CodeEditing.Proofs.Lint.Faults
import CodeEditing.Proofs.Worker.Truncation
import CodeEditing.Proofs.Worker.Delivery
import CodeEditing.Proofs.Lexing.Capped
import CodeEditing.Proofs.Lexing.Drafts
import CodeEditing.Proofs.Lexing.Strict
import CodeEditing.Proofs.Pattern.Attempts
import CodeEditing.Proofs.Pattern.Ends
import CodeEditing.Proofs.Pattern.Marks
import CodeEditing.Proofs.Lexing.Progress
import CodeEditing.Proofs.Lexing.Resumed
import CodeEditing.Proofs.Lexing.Constructs
import CodeEditing.Proofs.Lexing.Rescanned
import CodeEditing.Proofs.Folding.Ranges
import CodeEditing.Proofs.Folding.Closers
import CodeEditing.Proofs.Folding.Nesting
import CodeEditing.Proofs.Lexing.Colours
import CodeEditing.Proofs.Document.RowEdits
import CodeEditing.Proofs.Mode.Outdent
import CodeEditing.Proofs.Lexing.CommentLines
import CodeEditing.Proofs.Mode.Comments
