import BoundaryTag.Audit
import BoundaryTag.Proofs.Atomicity
import BoundaryTag.Proofs.Clearing
import BoundaryTag.Proofs.Diagnosis
import BoundaryTag.Proofs.Exactness
import BoundaryTag.Proofs.Foundation
import BoundaryTag.Proofs.Integrity
import BoundaryTag.Proofs.Introspection
import BoundaryTag.Proofs.Isolation
import BoundaryTag.Proofs.Lockstep
import BoundaryTag.Proofs.Narration
import BoundaryTag.Proofs.Preference
import BoundaryTag.Proofs.Provision
import BoundaryTag.Proofs.Refinement
import BoundaryTag.Proofs.Retention
import BoundaryTag.Proofs.Safety
import BoundaryTag.Proofs.Sharing
import BoundaryTag.Proofs.StrayWords
import BoundaryTag.Proofs.Splicing
import BoundaryTag.Proofs.Staleness
import BoundaryTag.Proofs.Undoing
