import Stencil.Artifact.Store
import Stencil.Ir.Program
import Stencil.SourceMap

/-!
Compiled templates: programs with what is known about the templates they come from.
-/

namespace Stencil

/-- A template that is ready to render. -/
structure CompiledTemplate where
  /-- The key of the template. -/
  template : String
  className : ClassName
  /-- The model type it is compiled for. -/
  modelType : ModelType
  program : Program
  sourceMap : Option SourceMap := none
  artifact : Option Artifact := none
  /-- The digest of the template's text. -/
  digest : Option String := none

namespace CompiledTemplate

/-- The module of the program. -/
def module (t : CompiledTemplate) : Ir.Module := t.program.module

/-- The layout that the template or an import file declares. -/
def layout (t : CompiledTemplate) : Option String := t.module.layout

end CompiledTemplate

end Stencil
