import Arbor.Compilation
import Arbor.Problem.Diagnostic
import Arbor.Proofs.Builtin.Abstraction
import Arbor.Proofs.Builtin.Arithmetic
import Arbor.Proofs.Code.Bounds
import Arbor.Proofs.Code.Elision
import Arbor.Proofs.Code.Session
import Arbor.Proofs.Compilation.Constants
import Arbor.Proofs.Compilation.Hygiene
import Arbor.Proofs.Compilation.Independence
import Arbor.Proofs.Compilation.Labels
import Arbor.Proofs.Compilation.Limits
import Arbor.Proofs.Compilation.Recursion
import Arbor.Proofs.Compilation.Settings
import Arbor.Proofs.Compilation.Slots
import Arbor.Proofs.Constraint.Conformance
import Arbor.Proofs.Constraint.Substitution
import Arbor.Proofs.Emission.AppendOnly
import Arbor.Proofs.Emission.Loading
import Arbor.Proofs.Emission.Recursion
import Arbor.Proofs.Emission.Returns
import Arbor.Proofs.Emission.StaticTypes
import Arbor.Proofs.Evaluation.Divisibility
import Arbor.Proofs.Evaluation.Recursion
import Arbor.Proofs.Evaluation.Stability
import Arbor.Proofs.Job.Unrolling
import Arbor.Proofs.Problem.Excerpts
import Arbor.Proofs.Program.Lookup
import Arbor.Proofs.Scope.Sharing
import Arbor.Proofs.Scope.Store
import Arbor.Scope.Forest
