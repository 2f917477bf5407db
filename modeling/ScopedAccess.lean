import ScopedAccess.Wire
import ScopedAccess.Session
import ScopedAccess.Proofs.Hierarchy.Expansion
import ScopedAccess.Proofs.Hierarchy.Failure
import ScopedAccess.Proofs.Hierarchy.Comparison
import ScopedAccess.Proofs.Hierarchy.Steps
import ScopedAccess.Proofs.Hierarchy.Recursion
import ScopedAccess.Proofs.Cache.Soundness
import ScopedAccess.Proofs.Cache.Queue
import ScopedAccess.Proofs.Cache.Recency
import ScopedAccess.Proofs.Cache.Eviction
import ScopedAccess.Proofs.Cache.Transparency
import ScopedAccess.Proofs.Write.Abandoned
import ScopedAccess.Proofs.Check.Meaning
import ScopedAccess.Proofs.Check.Reordering
import ScopedAccess.Proofs.Check.Locality
import ScopedAccess.Proofs.Check.Batch
import ScopedAccess.Proofs.Check.DepthLimit
import ScopedAccess.Proofs.Session.Resemblance
import ScopedAccess.Proofs.Gate.Mediation
import ScopedAccess.Proofs.Write.Outcome
import ScopedAccess.Proofs.Write.Installation
import ScopedAccess.Proofs.Object.Subsumption
import ScopedAccess.Proofs.Role.Grammar
import ScopedAccess.Proofs.DefaultRules.Template
import ScopedAccess.Proofs.DefaultRules.Privilege
import ScopedAccess.Proofs.DefaultRules.Isolation
import ScopedAccess.Proofs.Store.Listing
import ScopedAccess.Proofs.Wire.RoundTrip
