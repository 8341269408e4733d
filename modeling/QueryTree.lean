import QueryTree.Main
import QueryTree.Session
import QueryTree.Expr.Wire
import QueryTree.Proofs.Catalog
import QueryTree.Proofs.Usage
import QueryTree.Proofs.Parallel
import QueryTree.Proofs.Parallel.Normalize
import QueryTree.Proofs.Parallel.Build
import QueryTree.Proofs.Parallel.Run
import QueryTree.Proofs.Formed
import QueryTree.Proofs.Checked
import QueryTree.Proofs.Counted
import QueryTree.Proofs.Unambiguous
import QueryTree.Proofs.Hygiene
import QueryTree.Proofs.Renaming
import QueryTree.Proofs.Threefold
import QueryTree.Proofs.Lambda
import QueryTree.Proofs.Shift
import QueryTree.Proofs.Conforming
import QueryTree.Proofs.Depth
import QueryTree.Proofs.History
import QueryTree.Proofs.Grammar
import QueryTree.Proofs.Data
import QueryTree.Proofs.Failing
import QueryTree.Proofs.Reading
import QueryTree.Proofs.Everywhere
import QueryTree.Proofs.RoundTrip
import QueryTree.Proofs.Prebuilt
import QueryTree.Proofs.Capture
import QueryTree.Proofs.Placement
import QueryTree.Proofs.Keyed
import QueryTree.Proofs.Leaves
import QueryTree.Proofs.Curried
import QueryTree.Proofs.Declared
import QueryTree.Proofs.Places
import QueryTree.Proofs.Survey
import QueryTree.Proofs.Objects
import QueryTree.Proofs.Paths
import QueryTree.Proofs.Origin
import QueryTree.Proofs.Origin.Run
import QueryTree.Proofs.Rerooting
import QueryTree.Proofs.Pages
import QueryTree.Proofs.Decimals
import QueryTree.Proofs.Consumption
import QueryTree.Proofs.Sizes
import QueryTree.Proofs.Command
import QueryTree.Proofs.Calls
import QueryTree.Proofs.Contexts
