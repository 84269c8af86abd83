import StoreCheck.Main
import StoreCheck.Proofs.BranchOrder
import StoreCheck.Proofs.CarriedValues
import StoreCheck.Proofs.Consistency
import StoreCheck.Proofs.Counting
import StoreCheck.Proofs.EffectLattice
import StoreCheck.Proofs.Faithfulness
import StoreCheck.Proofs.ForgottenValues
import StoreCheck.Proofs.FreeVariables
import StoreCheck.Proofs.GoalFiles
import StoreCheck.Proofs.Hierarchies
import StoreCheck.Proofs.Integrity
import StoreCheck.Proofs.Locality
import StoreCheck.Proofs.Noninterference
import StoreCheck.Proofs.Paths
import StoreCheck.Proofs.Positions
import StoreCheck.Proofs.RoundTrip
import StoreCheck.Proofs.TypeSoundness
import StoreCheck.Proofs.Unambiguous
import StoreCheck.Proofs.Validation
import StoreCheck.Proofs.WellSorted
