import RegisterCompiler.Main
import RegisterCompiler.IR.Builder
import RegisterCompiler.Proofs.Listing
import RegisterCompiler.Proofs.Resolution
import RegisterCompiler.Proofs.Scheduling
import RegisterCompiler.Proofs.Inversion
import RegisterCompiler.Proofs.Spilling
import RegisterCompiler.Proofs.Paths
import RegisterCompiler.Proofs.Placement
import RegisterCompiler.Proofs.Conversions
import RegisterCompiler.Proofs.Unwinding
import RegisterCompiler.Proofs.Parameters
import RegisterCompiler.Proofs.Constants
import RegisterCompiler.Proofs.Access
import RegisterCompiler.Proofs.Startup
import RegisterCompiler.Proofs.Rounds
import RegisterCompiler.Proofs.Indices
import RegisterCompiler.Proofs.TruthValues
import RegisterCompiler.Proofs.Stacking
