import Stencil.Ir.Module

/-!
Units as trees: what the text of a unit says before its names are resolved. Names keep their places in the
unit, and statements the place in the template that a pragma gave them.
-/

namespace Stencil.Unit

/-- A name and its place. -/
structure Named where
  name : String
  pos : SourcePos
deriving DecidableEq

/-- An expression. Every form but a literal and a name starts where its first part starts. -/
inductive Expr
  | literal (v : Json) (pos : SourcePos)
  | name (name : String) (pos : SourcePos)
  | member (target : Expr) (name : Named)
  | call (target : Expr) (args : List Expr)
  | not (operand : Expr) (pos : SourcePos)
  | binary (op : Ir.BinaryOp) (lhs rhs : Expr)

/-- The place where an expression starts. -/
def Expr.pos : Expr → SourcePos
  | literal _ pos | name _ pos | not _ pos => pos
  | member target _ | call target _ => target.pos
  | binary _ lhs _ => lhs.pos

mutual

/-- A statement; `pos` is the place in the template of its code. -/
inductive Stmt
  | write (text : String)
  | emit (expr : Expr) (pos : Option SourcePos)
  | var (name : Named) (expr : Expr) (pos : Option SourcePos)
  | ifElse (branches : List Branch) (otherwise : Option (List Stmt)) (pos : Option SourcePos)
  | forEach (var : Named) (source : Expr) (body : List Stmt) (pos : Option SourcePos)
  | defineSection (name : Named)

/-- A condition and the block that follows it. -/
inductive Branch
  | mk (cond : Expr) (body : List Stmt)

end

/-- A function declaration; `template` is the place in the template of its code. -/
structure FunctionDecl where
  name : Named
  params : List Named
  body : Expr
  template : Option SourcePos

/-- A section declaration. -/
structure SectionDecl where
  name : Named
  body : List Stmt

/-- A member of a class, with the place of its keyword. -/
inductive Member
  | layout (key : String) (inherited : Bool) (pos : SourcePos)
  | function (decl : FunctionDecl)
  | sectionDecl (decl : SectionDecl)
  | execute (body : List Stmt) (pos : SourcePos)

/-- A class declaration. -/
structure ClassDecl where
  name : Named
  base : Named
  model : Named
  members : List Member

/-- A read unit. -/
structure Tree where
  space : Option String
  usings : List Named
  decl : ClassDecl

end Stencil.Unit
