import Arbor.Constraint.Lowering
import Arbor.Emission.Mapping
import Arbor.Object.Basic

/-!
# Compilation

Compiling a file yields an object.  The constraint is lowered first, because it declares the
activation labels that mappings name.
-/

namespace Arbor

/-- Compiles the file of a job. -/
def Job.compile (job : Job) : Except Problem Object :=
  match job.lowerMain {} with
  | .error p _ => .error p
  | .ok constraint labels =>
    match job.compileMappings labels {} with
    | .error p _ => .error p
    | .ok mappings constants =>
      .ok ⟨Object.currentVersion, constraint, constants.entries, mappings⟩

end Arbor
