import Stencil.Compile.Notice
import Stencil.Compile.Template
import Stencil.Helper.Library
import Stencil.TemplateError
import Stencil.Unit.Build
import Stencil.Unit.Generated

/-!
Compilers: from a generated unit to a compiled template. The toolchain builds the unit, errors become a
compilation error that is located in the template, warnings become notices, and the binary is loaded, by way
of an artifact file if binaries are kept in a folder.
-/

namespace Stencil

/-- How units are compiled. -/
structure Compiler where
  toolchain : Toolchain := Unit.build
  resolver : ReferenceResolver := ReferenceResolver.default
  defaultReferences : List Reference := Library.defaults
  baseTypes : List BaseType := BaseType.builtins
  /-- Write indented binaries. -/
  debug : Bool := false

/-- What compilations leave behind. -/
structure Workshop where
  artifacts : ArtifactStore := {}
  /-- The notices, in order. -/
  notices : List Notice := []
  /-- How many units were built. -/
  builds : Nat := 0

/-- A computation of a compiler. -/
abbrev Compilation := ExceptT TemplateError (StateM Workshop)

namespace Compiler

/-- The diagnostics of a build without a binary; if none of them is an error, one is added. -/
def failureDiagnostics (b : BuildOutput) : List Diagnostic :=
  if b.hasErrors then b.diagnostics
  else b.diagnostics ++ [⟨.error, "RK1009", "The toolchain produced no binary", none⟩]

/-- The error for a unit without a binary. -/
def failure (unit : Unit.Generated) (sourceMap : Option SourceMap) (b : BuildOutput) : CompilationError where
  template := unit.template
  diagnostics := failureDiagnostics b
  firstError := (((failureDiagnostics b).find? (·.isError)).map fun d =>
    SourceMap.locate sourceMap unit.template d.pos).getD .unknown
  source := unit.source

/-- The warnings of a build as notices. -/
def notices (unit : Unit.Generated) (sourceMap : Option SourceMap) (b : BuildOutput) : List Notice :=
  (b.diagnostics.filter (·.severity == .warning)).map fun d =>
    .warning unit.template d.code (SourceMap.locate sourceMap unit.template d.pos) d.message

/-- The source map of a unit, if any of its lines is mapped. -/
def sourceMap? (unit : Unit.Generated) : Option SourceMap :=
  let m := SourceMap.ofSource unit.source
  if m.entries.isEmpty then none else some m

/-- The text to load for a binary, and the artifact it is kept in. -/
def keepBinary (unit : Unit.Generated) (binary : String) : Compilation (String × Option Artifact) := fun w =>
  match w.artifacts.folder with
  | none => (.ok (binary, none), w)
  | some folder =>
    match w.artifacts.persist folder unit.className binary with
    | (.ok (text, artifact), artifacts) => (.ok (text, some artifact), { w with artifacts })
    | (.error (path, fault), artifacts) =>
      (.error (.ofCause unit.template (.artifactUnusable path fault)), { w with artifacts })

/-- Compiles a unit with the references of its template. -/
def compile (c : Compiler) (unit : Unit.Generated) (context : TypeContext) (own : List Reference) :
    Compilation CompiledTemplate := do
  let references := c.resolver own c.defaultReferences
  let options : BuildOptions := {
    usings := context.namespaces, modelType := context.modelType, baseTypes := c.baseTypes, debug := c.debug }
  let output := c.toolchain unit.source options references
  let sourceMap := sourceMap? unit
  modify fun w => { w with builds := w.builds + 1, notices := w.notices ++ notices unit sourceMap output }
  match output.hasErrors, output.binary with
  | false, some binary =>
    let (text, artifact) ← keepBinary unit binary
    match Program.load text references c.baseTypes with
    | .error fault => throw (.ofCause unit.template (.invalidBinary fault))
    | .ok program =>
      return {
        template := unit.template, className := unit.className, modelType := context.modelType
        program, sourceMap, artifact }
  | _, _ => throw (.compilation (failure unit sourceMap output))

end Compiler

end Stencil
