import Deferral.Main
import Deferral.Proofs.Ancestry
import Deferral.Proofs.Boundaries
import Deferral.Proofs.Bracing
import Deferral.Proofs.DeclaredTypes
import Deferral.Proofs.Descent
import Deferral.Proofs.Discipline
import Deferral.Proofs.Duplicates
import Deferral.Proofs.Effect
import Deferral.Proofs.FallingThrough
import Deferral.Proofs.Grouping
import Deferral.Proofs.Hygiene
import Deferral.Proofs.Meaning
import Deferral.Proofs.Offsets
import Deferral.Proofs.Quoting
import Deferral.Proofs.Removal
import Deferral.Proofs.Requests
import Deferral.Proofs.Specifying
import Deferral.Proofs.Stability
import Deferral.Proofs.Surviving
import Deferral.Proofs.Sweeping
import Deferral.Proofs.Walking
