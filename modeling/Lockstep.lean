import Lockstep.Capture.Printer
import Lockstep.Grammar.Script
import Lockstep.Interchange
import Lockstep.Matcher.Printer
import Lockstep.Parse
import Lockstep.Pattern.Printer
import Lockstep.Proofs.Applications
import Lockstep.Proofs.Closure
import Lockstep.Proofs.Compaction
import Lockstep.Proofs.Diagnostics
import Lockstep.Proofs.Lowering
import Lockstep.Store.Command
import Lockstep.Proofs.Limits
import Lockstep.Proofs.LinePartition
import Lockstep.Proofs.Tree
import Lockstep.Proofs.Divergence
import Lockstep.Proofs.Termination
import Lockstep.Proofs.Ceiling
import Lockstep.Proofs.Abort
import Lockstep.Proofs.Tokenizing
import Lockstep.Proofs.LongestMatch
import Lockstep.Proofs.Scanning
import Lockstep.Proofs.Quoting
import Lockstep.Proofs.Rows
import Lockstep.Proofs.Operators
import Lockstep.Proofs.Halting
import Lockstep.Proofs.Alternatives
import Lockstep.Proofs.Placement
import Lockstep.Proofs.Arising
import Lockstep.Proofs.Spanning
import Lockstep.Proofs.Naming
import Lockstep.Proofs.Verdict
import Lockstep.Proofs.Store.Persistence
import Lockstep.Proofs.Store.Checked
import Lockstep.Proofs.Store.Moving
import Lockstep.Proofs.Store.Safety
import Lockstep.Proofs.LineBreaks
import Lockstep.Proofs.Layout
import Lockstep.Proofs.Excerpts
import Lockstep.Proofs.LongLists
import Lockstep.Proofs.Sharing
import Lockstep.Proofs.Freshness
import Lockstep.Proofs.SharedNames
