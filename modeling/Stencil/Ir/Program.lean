import Stencil.Helper.Reference
import Stencil.Ir.Codec
import Stencil.ModelType

/-!
Programs: modules ready to run. Loading a binary reads the module, binds each import to a helper and finds out
how the base type writes values.
-/

namespace Stencil

/-- What is wrong with a binary. -/
inductive BinaryFault
  /-- The text is no module. -/
  | unreadable
  | format (version : Nat)
  | unresolvedImport (space name : String)
  | unknownBaseType (name : String)
  | functionSlot (index : Nat)
  | helperSlot (index : Nat)
  | sectionSlot (index : Nat)
deriving DecidableEq

/-- The wording of a fault in a binary. -/
def BinaryFault.describe : BinaryFault → String
  | unreadable => "the text is not a module"
  | format version => s!"format version {version} is not supported (expected {Ir.formatVersion})"
  | unresolvedImport space name => s!"unresolved import '{space}.{name}'"
  | unknownBaseType name => s!"unknown base type '{name}'"
  | functionSlot index => s!"function slot {index} does not exist"
  | helperSlot index => s!"helper slot {index} does not exist"
  | sectionSlot index => s!"section slot {index} does not exist"

/-- A module with its imports bound. -/
structure Program where
  module : Ir.Module
  /-- The helpers, one for each import. -/
  helpers : List Helper
  encoding : Encoding

namespace Program

/-- The helper that an import names. -/
def bindImport (references : List Reference) (i : Ir.Import) : Except BinaryFault Helper :=
  match Reference.findHelper? references i.space i.name with
  | some h => .ok h
  | none => .error (.unresolvedImport i.space i.name)

/-- The program of a module. -/
def link (m : Ir.Module) (references : List Reference) (bases : List BaseType) : Except BinaryFault Program := do
  if m.format ≠ Ir.formatVersion then throw (.format m.format)
  let helpers ← m.imports.mapM (bindImport references)
  match BaseType.find? bases m.baseType with
  | some base => return ⟨m, helpers, base.encoding⟩
  | none => throw (.unknownBaseType m.baseType)

/-- The program of a binary. -/
def load (binary : String) (references : List Reference) (bases : List BaseType) :
    Except BinaryFault Program :=
  match Ir.Module.decode? binary with
  | some m => link m references bases
  | none => .error .unreadable

end Program

end Stencil
