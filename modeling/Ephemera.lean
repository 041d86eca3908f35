import Ephemera.Http.Server
import Ephemera.Proofs.Reference
import Ephemera.Proofs.Schedule
import Ephemera.Proofs.Visible
import Ephemera.Proofs.Refinement
import Ephemera.Proofs.Staging
import Ephemera.Proofs.Primary
import Ephemera.Proofs.Commit
import Ephemera.Proofs.Provenance
import Ephemera.Proofs.Succession
import Ephemera.Proofs.Atomicity
import Ephemera.Proofs.LostUpdate
import Ephemera.Proofs.Placement
import Ephemera.Proofs.LockStep
import Ephemera.Proofs.Isolation
import Ephemera.Proofs.KeyIsolation
import Ephemera.Proofs.SweepRound
import Ephemera.Proofs.StagedTtl
import Ephemera.Proofs.Translation
import Ephemera.Proofs.Scanning
import Ephemera.Proofs.Lapse
import Ephemera.Proofs.Processor
import Ephemera.Proofs.Lifetimes
import Ephemera.Proofs.Acknowledgement
import Ephemera.Proofs.ReadBack
import Ephemera.Proofs.Handlers
import Ephemera.Proofs.Ownership
