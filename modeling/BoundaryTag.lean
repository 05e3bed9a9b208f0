import BoundaryTag.Heap.Allocation
import BoundaryTag.Heap.Survey
import BoundaryTag.Demo
import BoundaryTag.Main
import BoundaryTag.Proofs.Rounding
import BoundaryTag.Proofs.Tags
import BoundaryTag.Proofs.Granting
import BoundaryTag.Proofs.Outline
import BoundaryTag.Proofs.Depiction
import BoundaryTag.Proofs.Carving
import BoundaryTag.Proofs.Merging
import BoundaryTag.Proofs.Growing
import BoundaryTag.Proofs.Searching
import BoundaryTag.Proofs.Allocating
import BoundaryTag.Proofs.Releasing
import BoundaryTag.Proofs.Checking
import BoundaryTag.Proofs.Safety
import BoundaryTag.Proofs.Client
import BoundaryTag.Proofs.Shape
import BoundaryTag.Proofs.Creating
import BoundaryTag.Proofs.Isolation
import BoundaryTag.Proofs.Tracking
import BoundaryTag.Proofs.Floor
import BoundaryTag.Proofs.Guarding
import BoundaryTag.Proofs.Blindness
import BoundaryTag.Proofs.Sketching
import BoundaryTag.Proofs.Noninterference
import BoundaryTag.Proofs.Clearing
import BoundaryTag.Proofs.Defacing
import BoundaryTag.Proofs.RoundTrip
import BoundaryTag.Proofs.Locating
import BoundaryTag.Proofs.Unchecked
import BoundaryTag.Proofs.Piling
import BoundaryTag.Proofs.Serving
import BoundaryTag.Proofs.NextFit
import BoundaryTag.Proofs.Moving
import BoundaryTag.Proofs.Refusing
import BoundaryTag.Proofs.WellFormed
import BoundaryTag.Proofs.Agreement
import BoundaryTag.Proofs.Effects
