import Stencil.Text.Position

/-!
Template documents. A document is the tree of a template's markup together with its directives. Embedded
code is kept as text: it is read only after it has become part of a unit.
-/

namespace Stencil.Markup

mutual

/-- A piece of markup. -/
inductive Node
  /-- Literal text. -/
  | text (text : String) (pos : SourcePos)
  /-- An expression whose value is written. -/
  | expr (code : String) (pos : SourcePos)
  /-- A variable with its initialiser. -/
  | var (name : String) (code : String) (pos : SourcePos)
  /-- Alternatives, of which the first whose condition holds is taken. -/
  | ifElse (branches : List Branch) (otherwise : Option (List Node))
  /-- A body repeated for each item of a source. -/
  | forEach (var : String) (source : String) (pos : SourcePos) (body : List Node)
  /-- A named section, rendered where a layout asks for it. -/
  | sectionDef (name : String) (pos : SourcePos) (body : List Node)

/-- One alternative: a condition and what is written if it holds. -/
inductive Branch
  | mk (cond : String) (pos : SourcePos) (body : List Node)

end

/-- The value of a directive and the place where it starts. -/
structure Directive where
  value : String
  pos : SourcePos
deriving DecidableEq

/-- A function declared in a template: its value is that of its code. -/
structure FunctionDecl where
  name : String
  params : List String
  code : String
  pos : SourcePos
deriving DecidableEq

/-- What a template declares about itself. -/
structure Directives where
  model : Option Directive := none
  inherits : Option Directive := none
  layout : Option Directive := none
  usings : List Directive := []
  functions : List FunctionDecl := []

/-- A read template. -/
structure Document where
  nodes : List Node
  directives : Directives

end Stencil.Markup
