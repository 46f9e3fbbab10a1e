import Stencil.ModelType
import Stencil.Text.Blank

/-!
Settings of an engine. Every setting has a default; some values can be written down but cannot work.
-/

namespace Stencil

/-- Where binaries are kept. -/
inductive ArtifactMode
  | memory
  /-- A folder of the engine's own. -/
  | temp
  /-- A given folder. -/
  | directory
deriving DecidableEq

/-- The wording of a mode. -/
def ArtifactMode.name : ArtifactMode → String
  | memory => "memory"
  | temp => "temp"
  | directory => "directory"

/-- The modes. -/
def ArtifactMode.all : List ArtifactMode := [.memory, .temp, .directory]

/-- The settings of artifacts. -/
structure ArtifactSettings where
  mode : ArtifactMode := .memory
  path : Option String := none
deriving DecidableEq

/-- The settings of compilations. -/
structure CompilerSettings where
  /-- Namespaces that every unit uses. -/
  namespaces : List String := []
  baseType : String := BaseType.html.name
  linePragmas : Bool := true
  /-- Keep no lock on an artifact's file once it is loaded. -/
  unlockArtifacts : Bool := true
  artifacts : ArtifactSettings := {}
  /-- How long to wait for a lock, in milliseconds. -/
  lockTimeout : Nat := 5000
deriving DecidableEq

/-- The settings of renders. -/
structure RuntimeSettings where
  /-- How many templates may be rendered within each other. -/
  maxLayoutDepth : Nat := 16
deriving DecidableEq

/-- The settings of template sources. -/
structure SourceSettings where
  importsFileName : String := "_imports"
  extension : String := "cshtml"
deriving DecidableEq

/-- The settings of an engine. -/
structure Settings where
  compiler : CompilerSettings := {}
  runtime : RuntimeSettings := {}
  source : SourceSettings := {}
deriving DecidableEq

/-- A value that cannot work. -/
inductive SettingFault
  | zeroDepth
  | blankBaseType
  | unknownBaseType (name : String)
  | missingArtifactPath
  | importsPath
deriving DecidableEq

namespace SettingFault

/-- The setting at fault. -/
def field : SettingFault → String
  | zeroDepth => "runtime.max_layout_depth"
  | blankBaseType | unknownBaseType _ => "compiler.base_type"
  | missingArtifactPath => "compiler.artifacts.path"
  | importsPath => "source.imports_file_name"

/-- What is wrong with its value. -/
def reason : SettingFault → String
  | zeroDepth => "must be at least 1"
  | blankBaseType => "must not be empty"
  | unknownBaseType name => s!"unknown base type '{name}'"
  | missingArtifactPath => "required when mode = \"directory\""
  | importsPath => "must be a file name, not a path"

end SettingFault

/-- Why there are no settings, or no engine for them. -/
inductive ConfigFault
  | unreadable (path : String)
  /-- The text is no table of settings. -/
  | malformed
  | invalid (fault : SettingFault)
  /-- The folder of the artifacts cannot be made. -/
  | artifactFolder
deriving DecidableEq

/-- The wording of a fault. -/
def ConfigFault.message : ConfigFault → String
  | unreadable path => s!"CONFIG_READ_ERROR: failed to read '{path}'"
  | malformed => "CONFIG_PARSE_ERROR: the text is no table of settings"
  | invalid fault => s!"CONFIG_INVALID_VALUE: {fault.field}: {fault.reason}"
  | artifactFolder => "CONFIG_ARTIFACT_DIR: failed to prepare artifact directory"

/-- The first setting with a value that cannot work. -/
def Settings.fault? (s : Settings) : Option SettingFault :=
  if s.runtime.maxLayoutDepth = 0 then some .zeroDepth
  else if Text.allBlank s.compiler.baseType.toList then some .blankBaseType
  else if s.compiler.artifacts.mode = .directory ∧ s.compiler.artifacts.path = none then
    some .missingArtifactPath
  else if s.source.importsFileName.toList.contains '/' then some .importsPath
  else none

end Stencil
