/-!
Faults of locks on artifact files.
-/

namespace Stencil

/-- A step of acquiring a lock that the file system can refuse. -/
inductive LockStep
  | createFolder
  | openForWriting
  | openForReading
deriving DecidableEq

/-- The wording of a step. -/
def LockStep.describe : LockStep → String
  | createFolder => "create artifact directory"
  | openForWriting => "open artifact for writing"
  | openForReading => "open artifact for reading"

/-- Why a lock is not acquired. -/
inductive LockFault
  /-- Other holders kept the lock for too long. -/
  | timeout (path purpose : String)
  | refused (path : String) (step : LockStep)
deriving DecidableEq

/-- The wording of a fault. -/
def LockFault.message : LockFault → String
  | timeout path purpose => s!"timed out waiting for lock on artifact {path} ({purpose})"
  | refused path step => s!"I/O error during {step.describe} on artifact {path}"

end Stencil
