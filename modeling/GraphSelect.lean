import GraphSelect.Main
import GraphSelect.Proofs.Document.Names
import GraphSelect.Proofs.Document.Scanning
import GraphSelect.Proofs.Document.Reading
import GraphSelect.Proofs.Schema.Validity
import GraphSelect.Proofs.Resolution
import GraphSelect.Proofs.Operation.Paths
import GraphSelect.Proofs.Operation.Shape
import GraphSelect.Proofs.Generation.Expansion
import GraphSelect.Proofs.Generation.Walk
import GraphSelect.Proofs.Tree.Edit
import GraphSelect.Proofs.Operation.Edit
import GraphSelect.Proofs.Generation.Leaves
import GraphSelect.Proofs.Agreement
import GraphSelect.Proofs.Generation.Trail
import GraphSelect.Proofs.Generation.Depth
import GraphSelect.Proofs.Generation.Branches
import GraphSelect.Proofs.Operation.RoundTrip
import GraphSelect.Proofs.Operation.Merging
import GraphSelect.Proofs.Operation.Coherence
import GraphSelect.Proofs.Schema.Inputs
import GraphSelect.Proofs.Placeholder
import GraphSelect.Proofs.Tree.Roles
import GraphSelect.Proofs.Operation.Reordering
import GraphSelect.Proofs.Cache
import GraphSelect.Proofs.Json.Scanning
import GraphSelect.Proofs.Tree.Text
import GraphSelect.Proofs.Operation.Order
import GraphSelect.Proofs.Generation.Order
import GraphSelect.Proofs.Tree.Switching
import GraphSelect.Proofs.CommandLine
import GraphSelect.Proofs.Cache.Interleaving
import GraphSelect.Proofs.Builder
import GraphSelect.Proofs.Operation.Walk
import GraphSelect.Proofs.Operation.Nesting
import GraphSelect.Proofs.Operation.Unknown
import GraphSelect.Proofs.Operation.Sets
import GraphSelect.Proofs.Operation.Arrangement
import GraphSelect.Proofs.Operation.Arguments
import GraphSelect.Proofs.Generation.Independence
import GraphSelect.Proofs.Generation.Typename
import GraphSelect.Proofs.Tree.Update
import GraphSelect.Proofs.Tree.Selecting
import GraphSelect.Proofs.Generation.Texts
import GraphSelect.Proofs.Tree.Encoding
import GraphSelect.Proofs.Tree.Faults
import GraphSelect.Proofs.Tree.Listing
