import Stencil.Diagnostic

/-!
Notices: what is reported beside the result of a compilation.
-/

namespace Stencil

/-- A notice about a template. -/
inductive Notice
  /-- A warning about the template's unit. -/
  | warning (template code : String) (location : Location) (message : String)
  /-- A text was given for a template whose cached compilation has another one. -/
  | contentDiffers (template : String)
deriving DecidableEq

/-- The template that a notice is about. -/
def Notice.template : Notice → String
  | warning template .. => template
  | contentDiffers template => template

/-- The wording of a notice. -/
def Notice.message : Notice → String
  | warning _ _ _ message => message
  | contentDiffers _ => "content differs from the cached compilation; invalidate the key to recompile"

end Stencil
