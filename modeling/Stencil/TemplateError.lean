import Stencil.Diagnostic
import Stencil.Markup.Fault
import Stencil.Render.Failure

/-!
Everything that can go wrong between a template's key and its output.
-/

namespace Stencil

/-- A unit that was not built: its diagnostics, of which the first error is located. -/
structure CompilationError where
  template : String
  diagnostics : List Diagnostic
  firstError : Location
  /-- The text of the unit. -/
  source : String
deriving DecidableEq

namespace CompilationError

/-- The diagnostics that are errors. -/
def errors (e : CompilationError) : List Diagnostic := e.diagnostics.filter (·.isError)

/-- The whole wording of a compilation error: the first error, and how many more there are. -/
def message (e : CompilationError) : String :=
  let first := match e.errors with
    | d :: _ => s!" at {e.firstError.describe}: {d.code} {d.message}"
    | [] => ""
  let more := if e.errors.length > 1 then s!" (and {e.errors.length - 1} more errors)" else ""
  s!"Failed to compile template '{e.template}'{first}{more}"

end CompilationError

/-- Why a template gives no output. -/
inductive TemplateError
  | parse (e : Markup.ParseError)
  | compilation (e : CompilationError)
  /-- The last key of the chain occurs in it before. -/
  | layoutCycle (chain : List String)
  /-- The chain, last key included, is longer than allowed. -/
  | layoutDepthExceeded (chain : List String) (max : Nat)
  | execution (e : ExecutionError)
deriving DecidableEq

namespace TemplateError

/-- The wording of a chain of keys. -/
def describeChain (chain : List String) : String := " -> ".intercalate chain

/-- The whole wording of an error. -/
def message : TemplateError → String
  | parse e => s!"PARSE_ERROR: {e.message}"
  | compilation e => s!"COMPILATION_ERROR: {e.message}"
  | layoutCycle chain => s!"LAYOUT_CYCLE: layout chain {describeChain chain} returns to an earlier template"
  | layoutDepthExceeded chain max =>
    s!"LAYOUT_DEPTH_EXCEEDED: layout chain {describeChain chain} is longer than {max}"
  | execution e => s!"EXECUTION_ERROR: {e.message}"

/-- A failure that belongs to a template but to no place in it. -/
def ofCause (template : String) (cause : ExecutionCause) : TemplateError := execution ⟨template, none, cause⟩

end TemplateError

end Stencil
