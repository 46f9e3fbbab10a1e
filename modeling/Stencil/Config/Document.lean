import Stencil.Config.Settings
import Stencil.Toml.Document

/-!
Settings as TOML documents. Settings that a document does not give have their defaults, and what it gives
besides is ignored. Writing gives every setting that has a value; reading it back gives the same settings.
-/

namespace Stencil

namespace Toml

/-! ### Reading -/

/-- The settings of a group by name: from a table, or in order from an array. A time gives none. -/
def group? (names : List String) : Toml → Option (List (Option Toml))
  | table members => some (names.map fun n => (members.find? (·.1 == n)).map (·.2))
  | array items => some ((List.range names.length).map fun i => items[i]?)
  | time _ => some (names.map fun _ => none)
  | _ => none

/-- The text of a string. -/
def asString? : Toml → Option String
  | string s => some s
  | _ => none

/-- A truth value. -/
def asBool? : Toml → Option Bool
  | bool b => some b
  | _ => none

/-- An integer that is not negative. -/
def asCount? : Toml → Option Nat
  | integer n => if 0 ≤ n then some n.toNat else none
  | _ => none

/-- The texts of an array of strings. -/
def asStrings? : Toml → Option (List String)
  | array items => items.mapM asString?
  | _ => none

/-- A table or an array with nothing in it. -/
def isEmpty : Toml → Bool
  | table [] => true
  | array [] => true
  | _ => false

/-- What is read from a value, or the default for a missing one. -/
def orDefault (read : Toml → Option α) (default : α) : Option Toml → Option α
  | none => some default
  | some v => read v

end Toml

namespace Settings

open Toml (group? asString? asBool? asCount? asStrings? orDefault)

/-- A mode: its name, or a table with the name alone and nothing under it. -/
def mode? : Toml → Option ArtifactMode
  | .string s => ArtifactMode.all.find? (·.name == s)
  | .table [(name, v)] => if v.isEmpty then ArtifactMode.all.find? (·.name == name) else none
  | _ => none

/-- The settings of artifacts. -/
def artifacts? (v : Toml) : Option ArtifactSettings := do
  match ← group? ["mode", "path"] v with
  | [mode, path] => return ⟨← orDefault mode? .memory mode, ← orDefault (fun v => (asString? v).map some) none path⟩
  | _ => none

/-- The settings of compilations. -/
def compiler? (v : Toml) : Option CompilerSettings := do
  let d : CompilerSettings := {}
  match ← group? ["namespaces", "base_type", "emit_line_pragmas", "disable_temp_file_locking", "artifacts",
      "lock_timeout_ms"] v with
  | [namespaces, baseType, linePragmas, unlockArtifacts, artifacts, lockTimeout] =>
    return {
      namespaces := ← orDefault asStrings? d.namespaces namespaces
      baseType := ← orDefault asString? d.baseType baseType
      linePragmas := ← orDefault asBool? d.linePragmas linePragmas
      unlockArtifacts := ← orDefault asBool? d.unlockArtifacts unlockArtifacts
      artifacts := ← orDefault artifacts? d.artifacts artifacts
      lockTimeout := ← orDefault asCount? d.lockTimeout lockTimeout }
  | _ => none

/-- The settings of renders. -/
def runtime? (v : Toml) : Option RuntimeSettings := do
  match ← group? ["max_layout_depth"] v with
  | [depth] => return ⟨← orDefault asCount? ({} : RuntimeSettings).maxLayoutDepth depth⟩
  | _ => none

/-- The settings of template sources. -/
def source? (v : Toml) : Option SourceSettings := do
  let d : SourceSettings := {}
  match ← group? ["imports_file_name", "extension"] v with
  | [name, extension] =>
    return ⟨← orDefault asString? d.importsFileName name, ← orDefault asString? d.extension extension⟩
  | _ => none

/-- The settings that a table gives. -/
def ofToml? (v : Toml) : Option Settings := do
  match ← group? ["compiler", "runtime", "source"] v with
  | [compiler, runtime, source] =>
    return ⟨← orDefault compiler? {} compiler, ← orDefault runtime? {} runtime, ← orDefault source? {} source⟩
  | _ => none

/-- The settings of a document, whose values can work. -/
def parse (text : String) : Except ConfigFault Settings :=
  match (Toml.parse? text).bind fun members => ofToml? (.table members) with
  | none => .error .malformed
  | some s => match s.fault? with
    | some fault => .error (.invalid fault)
    | none => .ok s

/-! ### Writing -/

/-- The line of a setting. -/
def line (name : String) (value : List Char) : List Char := name.toList ++ " = ".toList ++ value ++ ['\n']

/-- The written form of a truth value. -/
def boolText (b : Bool) : List Char := (if b then "true" else "false").toList

/-- The written form of texts: on one line up to the first text, else on one line each. -/
def textsText : List String → List Char
  | [] => "[]".toList
  | [s] => '[' :: Toml.quote s ++ [']']
  | ss => "[\n".toList ++ (ss.flatMap fun s => "    ".toList ++ Toml.quote s ++ ",\n".toList) ++ [']']

/-- The lines of the settings, group by group. -/
def lines (s : Settings) : List (List Char) :=
  let c := s.compiler
  ["[compiler]\n".toList,
    line "namespaces" (textsText c.namespaces),
    line "base_type" (Toml.quote c.baseType),
    line "emit_line_pragmas" (boolText c.linePragmas),
    line "disable_temp_file_locking" (boolText c.unlockArtifacts),
    line "lock_timeout_ms" (Text.digitsOf c.lockTimeout),
    "\n[compiler.artifacts]\n".toList,
    line "mode" (Toml.quote c.artifacts.mode.name),
    (c.artifacts.path.map fun p => line "path" (Toml.quote p)).getD [],
    "\n[runtime]\n".toList,
    line "max_layout_depth" (Text.digitsOf s.runtime.maxLayoutDepth),
    "\n[source]\n".toList,
    line "imports_file_name" (Toml.quote s.source.importsFileName),
    line "extension" (Toml.quote s.source.extension)]

/-- The settings as a document. Integers must fit into it. -/
def toToml (s : Settings) : Except ConfigFault String :=
  if s.compiler.lockTimeout ≤ Toml.maxInteger ∧ s.runtime.maxLayoutDepth ≤ Toml.maxInteger then
    .ok (String.ofList s.lines.flatten)
  else .error .malformed

end Settings

end Stencil
