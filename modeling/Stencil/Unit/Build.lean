import Stencil.Ir.Codec
import Stencil.Unit.Lowering
import Stencil.Unit.Parser

/-!
Building binaries. A toolchain turns the text of a unit into a binary and diagnostics; there is a binary only
if none of them is an error.
-/

namespace Stencil

/-- What building a unit gives. -/
structure BuildOutput where
  binary : Option String := none
  diagnostics : List Diagnostic := []
deriving DecidableEq

/-- Some diagnostic is an error. -/
def BuildOutput.hasErrors (b : BuildOutput) : Bool := b.diagnostics.any (·.isError)

/-- What a unit is built for. -/
structure BuildOptions extends Unit.LoweringOptions where
  /-- Write an indented binary. -/
  debug : Bool := false

/-- From the text of a unit to a binary. -/
abbrev Toolchain := String → BuildOptions → List Reference → BuildOutput

namespace Unit

/-- The output for a unit with one problem. -/
def failedBuild (pos : SourcePos) (p : Problem) : BuildOutput := ⟨none, [p.diagnostic pos]⟩

/-- Builds a unit: reads it, resolves its names, and writes the module. -/
def build : Toolchain := fun source options references =>
  match Tree.ofSource source with
  | .error (pos, fault) => failedBuild pos (.malformed fault)
  | .ok tree =>
    match tree.lower? options.toLoweringOptions references with
    | none => failedBuild tree.decl.name.pos .circularSections
    | some lowered =>
      ⟨lowered.compiled.map (·.encode options.debug), lowered.problems.map fun (pos, p) => p.diagnostic pos⟩

end Unit

end Stencil
