import PermissionGraph.Document.Schema
import PermissionGraph.Document.Settings
import PermissionGraph.Document.Value
import PermissionGraph.Graph.Tables
import PermissionGraph.Store.Session
import PermissionGraph.Proofs.Access.Combination
import PermissionGraph.Proofs.Access.Enrichment
import PermissionGraph.Proofs.Access.Outlive
import PermissionGraph.Proofs.Access.Reordered
import PermissionGraph.Proofs.Access.Sequence
import PermissionGraph.Proofs.Store.ChangeLog
import PermissionGraph.Proofs.Store.Integrity
import PermissionGraph.Proofs.Store.Joining
import PermissionGraph.Proofs.Store.Replay
import PermissionGraph.Proofs.Value.Veiled
import PermissionGraph.Proofs.Access.Oscillation
import PermissionGraph.Proofs.Memo.History
import PermissionGraph.Proofs.Store.Lifetimes
import PermissionGraph.Proofs.Store.Ownership
import PermissionGraph.Proofs.Access.GroupGrants
import PermissionGraph.Proofs.Access.Convergence
import PermissionGraph.Proofs.Store.Routes
import PermissionGraph.Proofs.Store.Scan
import PermissionGraph.Proofs.Value.Idempotent
import PermissionGraph.Proofs.Store.Deletion
import PermissionGraph.Proofs.Store.Refused
import PermissionGraph.Proofs.Grants.Pointwise
import PermissionGraph.Proofs.Memo.Tally
import PermissionGraph.Proofs.Schema.InForce
import PermissionGraph.Proofs.Access.Gains
import PermissionGraph.Proofs.Store.Loading
import PermissionGraph.Proofs.Store.Cycles
