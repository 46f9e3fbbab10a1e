import Stencil.Engine.Basic

/-!
Building engines from settings. Base types of the caller take the place of built-in ones of the same name, and
the folder for artifacts is made if there is to be one.
-/

namespace Stencil

/-- What an engine is built from. -/
structure EngineParts where
  settings : Settings := {}
  sources : SourceProvider
  resolver : ReferenceResolver := ReferenceResolver.default
  toolchain : Toolchain := Unit.build
  references : List Reference := []
  baseTypes : List BaseType := []
  debug : Bool := false
  /-- The files among which a folder for artifacts may be. -/
  files : FileTree := {}

namespace EngineParts

/-- Base types with one more, which takes the place of one of its name. -/
def addBaseType (bases : List BaseType) (b : BaseType) : List BaseType :=
  bases.filter (·.name != b.name) ++ [b]

/-- The base types of the engine. -/
def allBaseTypes (p : EngineParts) : List BaseType := p.baseTypes.foldl addBaseType BaseType.builtins

/-- The folder that a mode keeps binaries in. -/
def folder (a : ArtifactSettings) : Option FilePath :=
  let given : FilePath := ⟨a.path.getD ""⟩
  match a.mode with
  | .memory => none
  | .directory => some given
  | .temp => some (given.join "stencil")

/-- The place for binaries. -/
def artifactStore (p : EngineParts) : Except ConfigFault ArtifactStore :=
  let keepLocks := !p.settings.compiler.unlockArtifacts
  match folder p.settings.compiler.artifacts with
  | none => .ok { keepLocks }
  | some path =>
    let files := p.files.makeFolders path
    if files.isFolder path then .ok { folder := some path, locks := { files }, keepLocks }
    else .error .artifactFolder

/-- The engine of the parts, with nothing stored. -/
def build (p : EngineParts) : Except ConfigFault (Engine × EngineState) := do
  if let some fault := p.settings.fault? then throw (.invalid fault)
  let baseTypes := p.allBaseTypes
  let name := p.settings.compiler.baseType
  let some baseType := BaseType.find? baseTypes name | throw (.invalid (.unknownBaseType name))
  let artifacts ← p.artifactStore
  let compiler : Compiler := {
    toolchain := p.toolchain, resolver := p.resolver, baseTypes, debug := p.debug }
  let engine : Engine := {
    settings := p.settings, sources := p.sources, generator := ⟨p.settings.compiler.linePragmas, baseTypes⟩
    compiler, baseType, references := p.references }
  return (engine, { workshop := { artifacts } })

end EngineParts

end Stencil
