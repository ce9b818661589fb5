import ByteRegex.Limits.Document
import ByteRegex.Program.Listing
import ByteRegex.Search.Cursor
import ByteRegex.Search.Stream
import ByteRegex.Template.Replace
import ByteRegex.Proofs.Core.Basic
import ByteRegex.Proofs.Core.Code
import ByteRegex.Proofs.Core.Moving
import ByteRegex.Proofs.Core.Generator
import ByteRegex.Proofs.Core.Expansion
import ByteRegex.Proofs.Exec.Spot
import ByteRegex.Proofs.Core.Loaded
import ByteRegex.Proofs.Match.Outcomes
import ByteRegex.Proofs.Exec.Reach
import ByteRegex.Proofs.Match.Realisation
import ByteRegex.Proofs.Exec.Depth
import ByteRegex.Proofs.Pattern.Normal
import ByteRegex.Proofs.Pattern.Reading
import ByteRegex.Proofs.Match.Spelling
import ByteRegex.Proofs.Program.Scopes
import ByteRegex.Proofs.Program.Stretches
import ByteRegex.Proofs.Program.Cells
import ByteRegex.Proofs.Exec.Rounds
import ByteRegex.Proofs.Exec.Simulation
import ByteRegex.Proofs.Exec.Memory
import ByteRegex.Proofs.Exec.Attempts
import ByteRegex.Proofs.Exec.Potential
import ByteRegex.Proofs.Search.Built
import ByteRegex.Proofs.Search.Scans
import ByteRegex.Proofs.Search.Memoization
import ByteRegex.Proofs.Match.Captures
import ByteRegex.Proofs.Search.Leftmost
import ByteRegex.Proofs.Match.Spans
import ByteRegex.Proofs.Search.Textbook
import ByteRegex.Proofs.Search.Calls
import ByteRegex.Proofs.Search.StepLimit
import ByteRegex.Proofs.Search.LinearWork
import ByteRegex.Proofs.Search.Termination
import ByteRegex.Proofs.Search.Cursors
import ByteRegex.Proofs.Core.Parts
import ByteRegex.Proofs.Program.Flow
import ByteRegex.Proofs.Program.Progress
import ByteRegex.Proofs.Program.Shape
import ByteRegex.Proofs.Match.Enclosure
import ByteRegex.Proofs.Search.Items
import ByteRegex.Proofs.Search.Replacement
import ByteRegex.Proofs.Pattern.Writing
import ByteRegex.Proofs.Pattern.Tokens
import ByteRegex.Proofs.Pattern.RoundTrip
import ByteRegex.Proofs.Pattern.Within
import ByteRegex.Proofs.Pattern.Limits
import ByteRegex.Proofs.Pattern.Faults
import ByteRegex.Proofs.Pattern.Locating
import ByteRegex.Proofs.Pattern.Offsets
import ByteRegex.Proofs.Search.Coverage
import ByteRegex.Proofs.Pattern.Groups
import ByteRegex.Proofs.Match.GroupSpans
import ByteRegex.Proofs.Search.Soundness
import ByteRegex.Proofs.Search.EmptyMatches
import ByteRegex.Proofs.Exec.Reaching
import ByteRegex.Proofs.Search.Safety
import ByteRegex.Proofs.Exec.Traces
import ByteRegex.Proofs.Search.Keys
import ByteRegex.Proofs.Program.Size
import ByteRegex.Proofs.Program.Brackets
import ByteRegex.Proofs.Exec.Undoing
import ByteRegex.Proofs.Search.Pruning
import ByteRegex.Proofs.Pattern.Lasting
import ByteRegex.Proofs.Text.Parts
import ByteRegex.Proofs.ByteSet.Canonical
import ByteRegex.Proofs.Pattern.ClassItems
import ByteRegex.Proofs.Template.Reading
import ByteRegex.Proofs.Program.Listing
import ByteRegex.Proofs.Pattern.Labels
import ByteRegex.Proofs.Pattern.Outline
import ByteRegex.Proofs.Exec.Nesting
import ByteRegex.Proofs.Program.Layout
import ByteRegex.Proofs.Program.Copies
