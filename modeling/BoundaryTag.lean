import BoundaryTag.Arena.Lawful
import BoundaryTag.Arena.Shared
import BoundaryTag.Heap.Check
import BoundaryTag.Heap.Walk
import BoundaryTag.Workload.Decode
import BoundaryTag.Workload.HeapSubject
import BoundaryTag.Workload.Recorded
import BoundaryTag.Proofs.Returns
import BoundaryTag.Proofs.Rewrites
import BoundaryTag.Proofs.FreeList
import BoundaryTag.Proofs.Tiling
import BoundaryTag.Proofs.Representation
import BoundaryTag.Proofs.Coalescing
import BoundaryTag.Proofs.Asking
import BoundaryTag.Proofs.Growth
import BoundaryTag.Proofs.Allocation
import BoundaryTag.Proofs.Release
import BoundaryTag.Proofs.Resizing
import BoundaryTag.Proofs.Walks
import BoundaryTag.Proofs.Start
import BoundaryTag.Proofs.Session
import BoundaryTag.Proofs.Serving
import BoundaryTag.Proofs.Guarantees
import BoundaryTag.Proofs.Image
import BoundaryTag.Proofs.Confinement
import BoundaryTag.Proofs.Reclaiming
import BoundaryTag.Proofs.FreeRuns
import BoundaryTag.Proofs.FirstFit
import BoundaryTag.Proofs.Mirroring
import BoundaryTag.Proofs.Refitting
import BoundaryTag.Proofs.Consistency
import BoundaryTag.Proofs.Inspection
import BoundaryTag.Proofs.Outline
import BoundaryTag.Proofs.Abstraction
import BoundaryTag.Proofs.Ledger
import BoundaryTag.Proofs.Noninterference
import BoundaryTag.Proofs.Translation
import BoundaryTag.Proofs.Relocation
import BoundaryTag.Proofs.Reports
import BoundaryTag.Proofs.Atomicity
import BoundaryTag.Proofs.Certificates
import BoundaryTag.Proofs.Membership
import BoundaryTag.Proofs.Preservation
import BoundaryTag.Proofs.Dangling
import BoundaryTag.Proofs.Rerelease
import BoundaryTag.Proofs.Harness
import BoundaryTag.Proofs.Recording
import BoundaryTag.Proofs.Acceptance
import BoundaryTag.Proofs.Drawing
import BoundaryTag.Proofs.Steps
import BoundaryTag.Proofs.Custody
import BoundaryTag.Proofs.Damage
import BoundaryTag.Proofs.Accord
import BoundaryTag.Proofs.Likeness
import BoundaryTag.Proofs.Replay
import BoundaryTag.Proofs.Exposure
import BoundaryTag.Proofs.Passage
import BoundaryTag.Proofs.Verdict
import BoundaryTag.Proofs.Lockstep
import BoundaryTag.Proofs.Detection
import BoundaryTag.Proofs.Reuse
import BoundaryTag.Proofs.Slack
import BoundaryTag.Proofs.Frames
import BoundaryTag.Proofs.Windows
import BoundaryTag.Proofs.Sealing
import BoundaryTag.Proofs.Pairs
import BoundaryTag.Proofs.Stranding
import BoundaryTag.Proofs.Detachment
import BoundaryTag.Proofs.Supply
import BoundaryTag.Proofs.Retracing
import BoundaryTag.Proofs.Threading
import BoundaryTag.Proofs.Strides
import BoundaryTag.Proofs.Rounding
import BoundaryTag.Proofs.Tagging
import BoundaryTag.Proofs.Painting
