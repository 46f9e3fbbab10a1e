import Stencil.Json.Value
import Stencil.Text.Position

/-!
Compiled modules. In a module every name is resolved: locals are called by name, functions of the template
and helpers by their index. A place in a template is kept where one is known.
-/

namespace Stencil.Ir

/-- A helper that a module calls. -/
structure Import where
  space : String
  name : String
deriving DecidableEq

/-- What every template can call. -/
inductive Builtin
  | renderBody
  | renderSection
  | isSectionDefined
  | embed
  | raw
deriving DecidableEq

namespace Builtin

/-- The builtins. -/
def all : List Builtin := [renderBody, renderSection, isSectionDefined, embed, raw]

/-- The name of a builtin. -/
def name : Builtin → String
  | renderBody => "RenderBody"
  | renderSection => "RenderSection"
  | isSectionDefined => "IsSectionDefined"
  | embed => "Include"
  | raw => "Raw"

/-- The builtin with a name. -/
def ofName? (name : String) : Option Builtin := all.find? (·.name == name)

/-- The least and the greatest number of arguments. -/
def arity : Builtin → Nat × Nat
  | renderBody => (0, 0)
  | renderSection | embed => (1, 2)
  | isSectionDefined | raw => (1, 1)

end Builtin

/-- What a call goes to. -/
inductive Callee
  | builtin (b : Builtin)
  /-- The function with this index in the module. -/
  | function (index : Nat)
  /-- The helper bound to the import with this index. -/
  | helper (slot : Nat)
deriving DecidableEq

/-- An operator between two values. -/
inductive BinaryOp
  | eq
  | ne
  | and
  | or
deriving DecidableEq

/-- An expression. -/
inductive Expr
  | literal (v : Json)
  | model
  /-- A local variable. -/
  | var (name : String)
  | member (target : Expr) (name : String)
  | call (callee : Callee) (args : List Expr)
  | not (operand : Expr)
  | binary (op : BinaryOp) (lhs rhs : Expr)

mutual

/-- A statement, with the place in the template of its code. -/
inductive Stmt
  | write (text : String)
  | emit (expr : Expr) (pos : Option SourcePos)
  /-- A local variable with its value. -/
  | bind (name : String) (expr : Expr) (pos : Option SourcePos)
  | ifElse (branches : List Branch) (otherwise : Option (List Stmt)) (pos : Option SourcePos)
  | forEach (var : String) (source : Expr) (body : List Stmt) (pos : Option SourcePos)
  /-- Registers the section with this index. -/
  | defineSection (index : Nat)

/-- A condition and what is executed if it holds. -/
inductive Branch
  | mk (cond : Expr) (body : List Stmt)

end

/-- A function of a template. -/
structure Function where
  name : String
  params : List String
  body : Expr
  pos : Option SourcePos

/-- A section of a template. -/
structure Section where
  name : String
  body : List Stmt

/-- The version of modules that can be loaded. -/
def formatVersion : Nat := 1

/-- A compiled template. -/
structure Module where
  format : Nat
  space : String
  className : String
  baseType : String
  modelType : String
  usings : List String
  layout : Option String
  /-- The layout comes from an import file and applies to pages only. -/
  layoutInherited : Bool
  imports : List Import
  functions : List Function
  sections : List Section
  body : List Stmt

/-- The index of the section with a name. -/
def Module.sectionIndex? (m : Module) (name : String) : Option Nat :=
  m.sections.findIdx? (·.name == name)

end Stencil.Ir
