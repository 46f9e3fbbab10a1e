import Stencil.Artifact.Store
import Stencil.Ir.Program
import Stencil.Source.Key
import Stencil.Text.Position

/-!
Failures of loading and executing templates: what went wrong, in which template, and where in it.
-/

namespace Stencil

/-- How deep template functions may call each other. -/
def maxCallDepth : Nat := 64

/-- What went wrong. -/
inductive ExecutionCause
  | templateNotFound (key : String)
  | sourceUnreadable (key : String) (fault : SourceFault)
  /-- The target is described by its path from the model or a local, else by its kind. -/
  | memberNotFound (target member : String)
  | undefinedName (name : String)
  | helperFailed (helper message : String)
  | notIterable (kind : String)
  | notPrintable (kind : String)
  | requiredSectionMissing (name : String)
  | bodyUnavailable
  | duplicateSection (name : String)
  | invalidSectionName
  | recursionLimit
  | artifactUnusable (path : String) (fault : ArtifactFault)
  | invalidBinary (fault : BinaryFault)
  | compilationAborted
deriving DecidableEq

/-- The wording of a cause. -/
def ExecutionCause.message : ExecutionCause → String
  | templateNotFound key => s!"template '{key}' was not found"
  | sourceUnreadable key fault => s!"template '{key}' could not be read: {fault.message}"
  | memberNotFound target member => s!"'{target}' has no member '{member}'"
  | undefinedName name => s!"the name '{name}' is not defined"
  | helperFailed helper message => s!"helper '{helper}' failed: {message}"
  | notIterable kind => s!"a value of kind {kind} cannot be iterated"
  | notPrintable kind => s!"a value of kind {kind} cannot be written to the output"
  | requiredSectionMissing name => s!"required section '{name}' is not defined"
  | bodyUnavailable => "RenderBody can only be called from a layout"
  | duplicateSection name => s!"section '{name}' is already defined"
  | invalidSectionName => "section names must not be empty"
  | recursionLimit => s!"function calls nested deeper than {maxCallDepth}"
  | artifactUnusable path fault => s!"artifact '{path}' could not be used: {fault.message}"
  | invalidBinary fault => s!"compiled binary is invalid: {fault.describe}"
  | compilationAborted => "compilation was aborted before it produced a result"

/-- A cause with its template, and the place in it if one is known. -/
structure ExecutionError where
  template : String
  pos : Option SourcePos
  cause : ExecutionCause
deriving DecidableEq

/-- The whole wording of an execution error. -/
def ExecutionError.message (e : ExecutionError) : String :=
  let place := match e.pos with
    | some pos => s!" at {pos.describe}"
    | none => ""
  s!"Failed to render '{e.template}'{place}: {e.cause.message}"

end Stencil
