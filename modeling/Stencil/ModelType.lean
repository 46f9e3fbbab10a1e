import Stencil.Text.NameSet

/-!
Model types and base types. A model type names the shape of the value a template is rendered with; a base
type fixes how a template's expressions are written.
-/

namespace Stencil

/-- The shape of a model. Without members, every member is looked up only when a template is rendered.
Two model types are the same for the cache if their names are. -/
structure ModelType where
  name : String
  /-- The declared members, in increasing order. -/
  members : Option (List String) := none
deriving DecidableEq

namespace ModelType

/-- The model type that says nothing about its members. -/
def dynamic : ModelType := ⟨"dynamic", none⟩

/-- A named model type with unchecked members. -/
def ofName (name : String) : ModelType := ⟨name, none⟩

/-- A named model type with exactly the given members. -/
def closed (name : String) (members : List String) : ModelType := ⟨name, some (Text.sortedSet members)⟩

/-- The model type is named as the dynamic one. -/
def isDynamic (m : ModelType) : Bool := m.name == dynamic.name

/-- The member is declared, or members are unchecked. -/
def accepts (m : ModelType) (member : String) : Bool :=
  match m.members with
  | none => true
  | some members => members.contains member

/-- A closed model type accepts exactly the members it was given. -/
theorem accepts_closed (name : String) (members : List String) (x : String) :
    (closed name members).accepts x = true ↔ x ∈ members := by
  simp [closed, accepts, Text.mem_sortedSet]

end ModelType

/-- How the values of expressions are written. -/
inductive Encoding
  | html
  | raw
deriving DecidableEq

/-- A type that the class of a template can derive from. -/
structure BaseType where
  name : String
  encoding : Encoding
  /-- The namespaces that every template of this type uses. -/
  requiredNamespaces : List String := []
deriving DecidableEq

namespace BaseType

/-- The base type whose expressions are encoded. -/
def html : BaseType := ⟨"TemplateBase", .html, ["Html"]⟩

/-- The base type whose expressions are written as they are. -/
def raw : BaseType := ⟨"RawTemplateBase", .raw, []⟩

/-- The base types that are always there. -/
def builtins : List BaseType := [html, raw]

/-- The first of the base types with a name. -/
def find? (bases : List BaseType) (name : String) : Option BaseType :=
  bases.find? (·.name == name)

end BaseType

end Stencil
