import Stencil.Text.Position

/-!
Diagnostics: what is said about a unit, how grave it is, and where it is found.
-/

namespace Stencil

/-- How grave a diagnostic is. -/
inductive Severity
  | info
  | warning
  | error
deriving DecidableEq

/-- The wording of a severity. -/
def Severity.describe : Severity → String
  | info => "info"
  | warning => "warning"
  | error => "error"

/-- A message about a unit; its place is one in the unit. -/
structure Diagnostic where
  severity : Severity
  code : String
  message : String
  pos : Option SourcePos := none
deriving DecidableEq

namespace Diagnostic

/-- The diagnostic is an error. -/
def isError (d : Diagnostic) : Bool := d.severity == .error

/-- The whole wording of a diagnostic. -/
def describe (d : Diagnostic) : String :=
  let place := match d.pos with
    | some pos => s!" at {pos.describe}"
    | none => ""
  s!"{d.severity.describe} {d.code}{place}: {d.message}"

end Diagnostic

/-- Where a diagnostic is reported: in the template if the place is known there, else in the unit. -/
inductive Location
  | template (template : String) (pos : SourcePos)
  | generated (pos : SourcePos)
  | unknown
deriving DecidableEq

/-- The wording of a location. -/
def Location.describe : Location → String
  | template t pos => s!"template '{t}' {pos.describe}"
  | generated pos => s!"generated source {pos.describe}"
  | unknown => "unknown location"

end Stencil
