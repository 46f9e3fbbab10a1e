import Stencil.Helper.Reference
import Stencil.Ir.Module
import Stencil.ModelType
import Stencil.Unit.Generated
import Stencil.Unit.Problem
import Stencil.Unit.Tree

/-!
Lowering: from a unit's tree to a module in which every name is resolved. A name is a local, else the model;
a called name is a function of the template, else a builtin, else a helper of a namespace in use. Whatever
cannot be resolved is reported, and lowering goes on. A section is lowered with the locals in scope wherever
it is registered.
-/

namespace Stencil.Unit

/-- What a unit is lowered for. -/
structure LoweringOptions where
  /-- Namespaces in use besides those of the unit. -/
  usings : List String := []
  modelType : ModelType := .dynamic
  baseTypes : List BaseType := BaseType.builtins

/-- What names are resolved against. -/
structure Scope where
  options : LoweringOptions
  references : List Reference
  usings : List String
  functions : List FunctionDecl
  sections : List SectionDecl

/-- What lowering has found so far. -/
structure Findings where
  imports : List Ir.Import := []
  /-- The indices of the functions that are called. -/
  called : List Nat := []
  /-- The sections lowered so far; the last lowering of each counts. -/
  sections : List (Option Ir.Section) := []
  problems : List (SourcePos × Problem) := []

/-- A step of lowering that cannot fail. -/
abbrev Resolve := StateM Findings

/-- Reports a problem. -/
def report (pos : SourcePos) (p : Problem) : Resolve Unit :=
  modify fun s => { s with problems := s.problems ++ [(pos, p)] }

/-! ### Calls -/

/-- Reports a number of arguments that is not taken. -/
def checkArity (name : String) (pos : SourcePos) (min max count : Nat) : Resolve Bool := do
  if min ≤ count ∧ count ≤ max then return true
  report pos (.arity name (if min = max then s!"{min}" else s!"{min} to {max}") count)
  return false

/-- The slot of an import, which is added if it is new. -/
def importSlot (i : Ir.Import) : Resolve Nat := do
  let s ← get
  match s.imports.findIdx? (· == i) with
  | some slot => return slot
  | none =>
    set { s with imports := s.imports ++ [i] }
    return s.imports.length

/-- Binds a call to a helper of a reference. -/
def bindHelper (r : Reference) (h : Helper) (name : String) (pos : SourcePos) (count : Nat) :
    Resolve (Option Ir.Callee) := do
  if h.arity.accepts count then
    return some (.helper (← importSlot ⟨r.space, name⟩))
  report pos (.arity s!"{r.space}.{name}" h.arity.describe count)
  return none

/-- The references in use that have a helper with a name. -/
def Scope.candidates (sc : Scope) (name : String) : List (Reference × Helper) :=
  sc.references.filterMap fun r =>
    if sc.usings.contains r.space then (r.helper? name).map fun h => (r, h) else none

/-- Resolves a call of a name. -/
def resolveName (sc : Scope) (name : String) (pos : SourcePos) (count : Nat) :
    Resolve (Option Ir.Callee) := do
  match sc.functions.findIdx? (·.name.name == name) with
  | some index =>
    modify fun s => { s with called := index :: s.called }
    let params := ((sc.functions[index]?).map (·.params.length)).getD 0
    return if ← checkArity name pos params params count then some (.function index) else none
  | none =>
    match Ir.Builtin.ofName? name with
    | some b =>
      return if ← checkArity name pos b.arity.1 b.arity.2 count then some (.builtin b) else none
    | none =>
      match sc.candidates name with
      | [] =>
        report pos (.unknownFunction name)
        return none
      | [(r, h)] => bindHelper r h name pos count
      | several =>
        report pos (.ambiguous name (several.map (·.1.space)))
        return none

/-- The names of a chain of members that starts with a name. -/
def Expr.path? : Expr → Option (List String)
  | .name n _ => some [n]
  | .member target n => (target.path?).map (· ++ [n.name])
  | _ => none

/-- Resolves a call of a helper by its namespace and name. -/
def resolvePath (sc : Scope) (path : List String) (pos : SourcePos) (count : Nat) :
    Resolve (Option Ir.Callee) := do
  let space := ".".intercalate path.dropLast
  let name := path.getLast?.getD ""
  match Reference.find? sc.references space with
  | some r => match r.helper? name with
    | some h => bindHelper r h name pos count
    | none =>
      report pos (.notInNamespace space name)
      return none
  | none =>
    report pos (.unknownPath (".".intercalate path) space)
    return none

/-- Resolves what a call goes to. -/
def resolveCallee (sc : Scope) (locals : List String) (target : Expr) (count : Nat) :
    Resolve (Option Ir.Callee) := do
  match target with
  | .name n pos =>
    if locals.contains n then
      report pos (.variableCalled n)
      return none
    resolveName sc n pos count
  | .member .. => match target.path? with
    | some path => resolvePath sc path target.pos count
    | none =>
      report target.pos .memberCalled
      return none
  | _ =>
    report target.pos .notCallable
    return none

/-! ### Expressions -/

/-- The expression is the model itself. -/
def Expr.isModel (locals : List String) : Expr → Bool
  | .name n _ => n == "Model" && !locals.contains n
  | _ => false

/-- Reports a member that the model type does not have. -/
def checkModelMember (sc : Scope) (n : Named) : Resolve Unit := do
  if !sc.options.modelType.accepts n.name then
    report n.pos (.unknownMember sc.options.modelType.name n.name)

mutual

/-- Lowers an expression under the locals in scope. -/
def lowerExpr (sc : Scope) (locals : List String) : Expr → Resolve Ir.Expr
  | .literal v _ => return .literal v
  | .name n pos => do
    if locals.contains n then return .var n
    if n == "Model" then return .model
    report pos (.unknownName n)
    return .literal .null
  | .member target n => do
    if target.isModel locals then checkModelMember sc n
    return .member (← lowerExpr sc locals target) n.name
  | .call target args => do
    let callee ← resolveCallee sc locals target args.length
    let args ← lowerExprs sc locals args
    return match callee with
      | some callee => .call callee args
      | none => .literal .null
  | .not operand _ => return .not (← lowerExpr sc locals operand)
  | .binary op lhs rhs => do
    let lhs ← lowerExpr sc locals lhs
    return .binary op lhs (← lowerExpr sc locals rhs)

/-- Lowers expressions one after the other. -/
def lowerExprs (sc : Scope) (locals : List String) : List Expr → Resolve (List Ir.Expr)
  | [] => return []
  | e :: es => do
    let e ← lowerExpr sc locals e
    return e :: (← lowerExprs sc locals es)

end

/-! ### Statements -/

/-- A step of lowering that has no result if it would never end. -/
abbrev Lower := StateT Findings Option

/-- A step that cannot fail as one that could. -/
def Resolve.lift (x : Resolve α) : Lower α := fun s => some (x s)

/-- Lowers the section with an index under the locals in scope. -/
abbrev SectionLowering := Nat → List String → Lower Unit

mutual

/-- Lowers a statement under the locals in scope; nothing is left of one that registers no section. -/
def lowerStmt (sc : Scope) (lowerSection : SectionLowering) (locals : List String) :
    Stmt → Lower (Option Ir.Stmt)
  | .write text => return some (.write text)
  | .emit e pos => return some (.emit (← (lowerExpr sc locals e).lift) pos)
  | .var n e pos => return some (.bind n.name (← (lowerExpr sc locals e).lift) pos)
  | .ifElse branches otherwise pos => do
    let branches ← lowerBranches sc lowerSection locals branches
    let otherwise ← match otherwise with
      | none => pure none
      | some body => some <$> lowerStmts sc lowerSection locals body
    return some (.ifElse branches otherwise pos)
  | .forEach var source body pos => do
    let source ← (lowerExpr sc locals source).lift
    return some (.forEach var.name source (← lowerStmts sc lowerSection (var.name :: locals) body) pos)
  | .defineSection n => do
    match sc.sections.findIdx? (·.name.name == n.name) with
    | none =>
      (report n.pos (.sectionUndeclared n.name)).lift
      return none
    | some index =>
      lowerSection index locals
      return some (.defineSection index)

/-- Lowers conditions and their blocks. -/
def lowerBranches (sc : Scope) (lowerSection : SectionLowering) (locals : List String) :
    List Branch → Lower (List Ir.Branch)
  | [] => return []
  | .mk cond body :: rest => do
    let cond ← (lowerExpr sc locals cond).lift
    let body ← lowerStmts sc lowerSection locals body
    return .mk cond body :: (← lowerBranches sc lowerSection locals rest)

/-- Lowers statements one after the other; a variable is in scope after its statement. -/
def lowerStmts (sc : Scope) (lowerSection : SectionLowering) (locals : List String) :
    List Stmt → Lower (List Ir.Stmt)
  | [] => return []
  | s :: ss => do
    let lowered ← lowerStmt sc lowerSection locals s
    let locals := match s with
      | .var n .. => n.name :: locals
      | _ => locals
    return lowered.toList ++ (← lowerStmts sc lowerSection locals ss)

end

/-- Lowers a section whose body registers sections at most `depth - 1` deep. -/
def lowerSection (sc : Scope) : Nat → SectionLowering
  | 0, _, _ => fun _ => none
  | depth + 1, index, locals => do
    match sc.sections[index]? with
    | none => return
    | some decl =>
      let body ← lowerStmts sc (lowerSection sc depth) locals decl.body
      modify fun s => { s with sections := s.sections.set index (some ⟨decl.name.name, body⟩) }

/-! ### Units -/

/-- The declarations of a class; of those that clash the first function and the first section of a name
count, and the last layout and body. -/
structure Outline where
  layout : Option String := none
  layoutInherited : Bool := false
  functions : List FunctionDecl := []
  sections : List SectionDecl := []
  execute : Option (List Stmt) := none
  problems : List (SourcePos × Problem) := []

namespace Outline

/-- The outline with a problem if there is one. -/
def blame (o : Outline) (bad : Bool) (pos : SourcePos) (p : Problem) : Outline :=
  if bad then { o with problems := o.problems ++ [(pos, p)] } else o

/-- The outline with one more member. -/
def add (o : Outline) : Member → Outline
  | .layout key inherited pos =>
    { o.blame o.layout.isSome pos .layoutTwice with layout := some key, layoutInherited := inherited }
  | .function decl =>
    if o.functions.any (·.name.name == decl.name.name) then
      o.blame true decl.name.pos (.functionTwice decl.name.name)
    else { o with functions := o.functions ++ [decl] }
  | .sectionDecl decl =>
    if o.sections.any (·.name.name == decl.name.name) then
      o.blame true decl.name.pos (.sectionTwice decl.name.name)
    else { o with sections := o.sections ++ [decl] }
  | .execute body pos => { o.blame o.execute.isSome pos .executeTwice with execute := some body }

end Outline

/-- The problems of a unit's header and namespaces. -/
def headerProblems (options : LoweringOptions) (references : List Reference) (t : Tree) :
    List (SourcePos × Problem) :=
  let c := t.decl
  let requested := options.modelType
  (if (BaseType.find? options.baseTypes c.base.name).isNone then
    [(c.base.pos, .unknownBaseType c.base.name)] else []) ++
  (if !requested.isDynamic ∧ requested.name ≠ c.model.name then
    [(c.model.pos, .modelMismatch c.model.name requested.name)] else []) ++
  (t.usings.filter fun u => (Reference.find? references u.name).isNone).map fun u =>
    (u.pos, .unknownNamespace u.name)

/-- The namespaces in use: those of the unit, then the others that are asked for. -/
def Tree.usedNamespaces (t : Tree) (options : LoweringOptions) : List String :=
  options.usings.foldl (fun us u => if us.contains u then us else us ++ [u]) (t.usings.map (·.name))

/-- Lowers a function. -/
def lowerFunction (sc : Scope) (f : FunctionDecl) : Resolve Ir.Function := do
  let params := f.params.map (·.name)
  return ⟨f.name.name, params, ← lowerExpr sc params f.body, f.template⟩

/-- Lowers the sections that nothing has registered, as if without locals. -/
def lowerLeft (sc : Scope) (depth : Nat) : Nat → Nat → Lower Unit
  | 0, _ => return
  | n + 1, index => do
    if ((← get).sections[index]?).join.isNone then lowerSection sc depth index []
    lowerLeft sc depth n (index + 1)

/-- What lowering a unit gives: a module if there is no error, and the problems in the order in which they
are found. -/
structure Lowered where
  compiled : Option Ir.Module
  problems : List (SourcePos × Problem)

/-- Lowers a class that has been outlined. -/
def lowerOutline (sc : Scope) (o : Outline) (noExecute : SourcePos) :
    Lower (List Ir.Function × List Ir.Stmt) := do
  let functions ← (o.functions.mapM (lowerFunction sc)).lift
  let depth := o.sections.length
  let body ← match o.execute with
    | some body => lowerStmts sc (lowerSection sc depth) [] body
    | none => do
      (report noExecute .noExecute).lift
      pure []
  lowerLeft sc depth depth 0
  return (functions, body)

/-- The problems of functions that are never called. -/
def unusedFunctions (called : List Nat) (functions : List FunctionDecl) : List (SourcePos × Problem) :=
  (functions.zipIdx.filter fun (_, i) => !called.contains i).map fun (f, _) =>
    (f.name.pos, .unusedFunction f.name.name)

/-- Lowers a unit. There is no result if sections register each other in a circle: lowering each where it is
registered would never end. -/
def Tree.lower? (t : Tree) (options : LoweringOptions) (references : List Reference) : Option Lowered := do
  let o := t.decl.members.foldl Outline.add {}
  let usings := t.usedNamespaces options
  let sc : Scope := ⟨options, references, usings, o.functions, o.sections⟩
  let start : Findings :=
    { sections := o.sections.map fun _ => none
      problems := headerProblems options references t ++ o.problems }
  let ((functions, body), s) ← lowerOutline sc o t.decl.name.pos start
  let problems := s.problems ++ unusedFunctions s.called o.functions
  if problems.any (·.2.isError) then return ⟨none, problems⟩
  return {
    compiled := some {
      format := Ir.formatVersion
      space := t.space.getD unitNamespace
      className := t.decl.name.name
      baseType := t.decl.base.name
      modelType := t.decl.model.name
      usings
      layout := o.layout
      layoutInherited := o.layoutInherited
      imports := s.imports
      functions
      sections := s.sections.filterMap id
      body }
    problems }

end Stencil.Unit
