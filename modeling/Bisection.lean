import Bisection.Script.Step
import Bisection.Element.Functions
import Bisection.Command.Offsets
import Bisection.Main
import Bisection.Proofs.Scan.Cells
import Bisection.Proofs.Scan.Duty
import Bisection.Proofs.Scan.Descent
import Bisection.Proofs.Scan.Leaves
import Bisection.Proofs.Scan.Report
import Bisection.Proofs.Scan.Interleaving
import Bisection.Proofs.Scan.Bracketing
import Bisection.Proofs.Scan.Calls
import Bisection.Proofs.Scan.Failures
import Bisection.Proofs.Scan.Work
import Bisection.Proofs.Scan.History
import Bisection.Proofs.Scan.CallCount
import Bisection.Proofs.Window.Totals
import Bisection.Proofs.Sort.Merge
import Bisection.Proofs.Sort.Quicksort
import Bisection.Proofs.Sort.Quarters
import Bisection.Proofs.Sort.Reflexive
import Bisection.Proofs.KeyTable.Sizing
import Bisection.Proofs.KeyTable.Probing
import Bisection.Proofs.KeyTable.Sharing
import Bisection.Proofs.Search.Sharing
import Bisection.Proofs.Alone.Tracking
import Bisection.Proofs.Alone.Traces
import Bisection.Proofs.Alone.Sharing
import Bisection.Proofs.Alone.Sorting
import Bisection.Proofs.Alone.Scanning
import Bisection.Proofs.Alone.Searching
import Bisection.Proofs.Alone.Selecting
import Bisection.Proofs.Alone.Tables
import Bisection.Proofs.Alone.Windows
import Bisection.Proofs.Alone.Elements
import Bisection.Proofs.Alone.Indices
import Bisection.Proofs.Alone.Watching
import Bisection.Proofs.Alone.Scripts
import Bisection.Proofs.Pieces.Forking
import Bisection.Proofs.Pieces.Metering
import Bisection.Proofs.Pieces.Concurrency
import Bisection.Proofs.Pieces.Placement
import Bisection.Proofs.Pieces.Compaction
import Bisection.Proofs.Pieces.Loops
import Bisection.Proofs.Pieces.Halving
import Bisection.Proofs.Pieces.Bisections
import Bisection.Proofs.Pieces.LeafCount
import Bisection.Proofs.Window.Reduction
import Bisection.Proofs.Window.Loops
import Bisection.Proofs.Window.Sweeps
import Bisection.Proofs.Window.Values
import Bisection.Proofs.Window.Folds
import Bisection.Proofs.Window.Matches
import Bisection.Proofs.KeyTable.Entering
import Bisection.Proofs.Agreement.Lawful
import Bisection.Proofs.Agreement.Runs
import Bisection.Proofs.Agreement.Endings
import Bisection.Proofs.Window.Selections
import Bisection.Proofs.Window.Removals
import Bisection.Proofs.Agreement.Sharing
import Bisection.Proofs.Agreement.Operations
import Bisection.Proofs.Agreement.Telling
import Bisection.Proofs.Agreement.Thresholds
import Bisection.Proofs.Agreement.Scripts
import Bisection.Proofs.Window.Distinct
import Bisection.Proofs.Sort.Stability
import Bisection.Proofs.Search.Stopping
import Bisection.Proofs.Window.Extremes
import Bisection.Proofs.Window.Duplicates
import Bisection.Proofs.Window.Sortedness
import Bisection.Proofs.Window.Elementwise
import Bisection.Proofs.Scan.Phases
import Bisection.Proofs.Scan.Spine
import Bisection.Proofs.Scan.Unfailing
import Bisection.Proofs.Scan.Restarts
import Bisection.Proofs.KeyTable.Load
import Bisection.Proofs.Words.Searches
import Bisection.Proofs.Words.Bisections
import Bisection.Proofs.Sort.Interleaving
import Bisection.Proofs.Sort.Rounds
import Bisection.Proofs.Search.Reporting
import Bisection.Proofs.Random.Samples
import Bisection.Proofs.Scan.Partial
import Bisection.Proofs.Command.Sums
import Bisection.Proofs.Command.Scenarios
