import MiniC.Command.Build
import MiniC.Main
import MiniC.Names
import MiniC.Session
import MiniC.Table
import MiniC.Token.Reader
import MiniC.Proofs.Precedence.Climbing
import MiniC.Proofs.Precedence.Collapsing
import MiniC.Proofs.Lowering.Calls
import MiniC.Proofs.Validation.Modules
import MiniC.Proofs.Typing.Nodes
import MiniC.Proofs.Checking.Owners
import MiniC.Proofs.Reading.Words
import MiniC.Proofs.Naming.Visibility
import MiniC.Proofs.Checking.Whole
import MiniC.Proofs.Naming.Resolution
import MiniC.Proofs.Strict.Compile
import MiniC.Proofs.Scanning.Lookahead
import MiniC.Proofs.Checking.Functions
import MiniC.Proofs.Grammar.Acceptance
import MiniC.Proofs.Checking.Malformed
import MiniC.Proofs.Invariance.Layout
import MiniC.Proofs.Invariance.Names
import MiniC.Proofs.Invariance.Declarations
import MiniC.Proofs.Reports.Windows
import MiniC.Proofs.Storage.Placement
import MiniC.Proofs.Scanning.Newlines
import MiniC.Proofs.Scanning.Printing
import MiniC.Proofs.Naming.Coherence
import MiniC.Proofs.Reparsing.Words
import MiniC.Proofs.Reparsing.Reading
import MiniC.Proofs.Reparsing.RoundTrip
import MiniC.Proofs.Execution.Visits
import MiniC.Proofs.Naming.Blocks
import MiniC.Proofs.Storage.Arrays
import MiniC.Proofs.Storage.Indexing
import MiniC.Proofs.Lowering.Branches
import MiniC.Proofs.Lowering.Constants
import MiniC.Proofs.Lowering.Offsets
import MiniC.Proofs.Nesting.Modules
import MiniC.Proofs.Termination.Parsing
import MiniC.Proofs.Naming.Histories
import MiniC.Proofs.Reparsing.Types
import MiniC.Proofs.Naming.Interning
