import Stencil.Render.Scene
import Stencil.Render.Value
import Stencil.Text.Html

/-!
Executing programs. An execution gives the pieces of the output in order: text of the template, printed
values, which the program's encoding applies to, and markup, which it does not. Template functions call each
other to a limited depth. A section renders below the frame of its definition, so that sections nest no deeper
than there are frames.
-/

namespace Stencil

/-- The value of an expression. -/
inductive Evaluated
  | value (v : Json)
  /-- Text that is written without encoding. -/
  | markup (text : String)

/-- What is computed with from here on. -/
def Evaluated.toJson : Evaluated → Json
  | value v => v
  | markup text => .string text

/-- A part of the output. -/
inductive Piece
  /-- Text of the template. -/
  | literal (text : String)
  /-- The printed value of an expression. -/
  | value (text : String)
  | markup (text : String)
deriving DecidableEq

/-- The output of a piece. -/
def Piece.render : Encoding → Piece → String
  | _, literal text | _, markup text | .raw, value text => text
  | .html, value text => Text.htmlEncode text

/-- The output of pieces. -/
def Piece.renderAll (encoding : Encoding) (pieces : List Piece) : String :=
  String.join (pieces.map (Piece.render encoding))

/-- What the code of a template runs on. -/
structure Machine (σ : Type) where
  compiled : CompiledTemplate
  model : Json
  host : Host σ
  /-- The output of the visible section of a name. -/
  renderSection : String → Execution σ (Option String)

namespace Machine

open Ir (Expr Stmt Branch Callee Builtin BinaryOp)

variable {σ : Type}

/-! ### Expressions -/

/-- The path of an expression that names a member by member. -/
def path? : Expr → Option String
  | .model => some "Model"
  | .var name => some name
  | .member target name => (path? target).map fun p => s!"{p}.{name}"
  | _ => none

/-- How an error names the target of a look-up: by its path, else by its kind. -/
def describe (target : Expr) (v : Json) : String := (path? target).getD v.kind

/-- A value, or the cause of its absence. -/
def need (v : Option α) (c : ExecutionCause) : Evaluation σ α :=
  match v with
  | some v => return v
  | none => Evaluation.fail c

/-- The text that is printed for a value. -/
def print (v : Json) : Evaluation σ String := need v.printed? (.notPrintable v.kind)

/-- The wording of a kind, or of a missing value. -/
def kindOrNothing (v : Option Json) : String := (v.map (·.kind)).getD "nothing"

/-- The first argument of a builtin, which has to be a string. -/
def textArg (b : Builtin) (what : String) (v : Option Json) : Evaluation σ String :=
  match v with
  | some (.string s) => return s
  | v => Evaluation.fail (.helperFailed b.name s!"{what} must be a string, got {kindOrNothing v}")

/-- Calls a builtin. -/
def callBuiltin (m : Machine σ) (b : Builtin) (args : List Json) : Evaluation σ Evaluated :=
  match b with
  | .renderBody => do
    let body ← need (← get).context.bodies.head? .bodyUnavailable
    return .markup body.content
  | .isSectionDefined => do
    let name ← textArg b "section name" args.head?
    return .value (.bool ((← get).context.isDefined name))
  | .renderSection => do
    let name ← textArg b "section name" args.head?
    let required := ((args.tail.head?).map (·.truthy)).getD false
    match ← (m.renderSection name).lift with
    | some text => return .markup text
    | none => if required then Evaluation.fail (.requiredSectionMissing name) else return .markup ""
  | .embed => do
    let key ← textArg b "template key" args.head?
    let x := match args.tail.head? with
      | some model => m.host.partial key .dynamic model
      | none => m.host.partial key m.compiled.modelType m.model
    return .markup (← x.lift)
  | .raw => return .markup (← print (args.head?.getD .null))

/-- The full name of the helper with an index. -/
def helperName (m : Machine σ) (slot : Nat) : String :=
  match m.compiled.module.imports[slot]? with
  | some i => s!"{i.space}.{i.name}"
  | none => ""

/-- Calls a helper. -/
def callHelper (m : Machine σ) (slot : Nat) (h : Helper) (args : List Json) : Evaluation σ Evaluated :=
  match h.run args with
  | .ok v => if h.markup then return .markup (← print v) else return .value v
  | .error (.failed message) => Evaluation.fail (.helperFailed (m.helperName slot) message)
  | .error .missingArgument => throw (.nested .missingArgument)

/-- How template functions are called, unless the limit is reached. -/
abbrev Caller (σ : Type) := Option (Locals → Expr → Evaluation σ Evaluated)

/-- The locals of a call. -/
def bindParams (params : List String) (args : List Json) : Locals := (params.zip args).reverse

mutual

/-- The value of an expression. -/
def eval (m : Machine σ) (caller : Caller σ) (locals : Locals) : Expr → Evaluation σ Evaluated
  | .literal v => return .value v
  | .model => return .value m.model
  | .var name => return .value (← need (locals.find? name) (.undefinedName name))
  | .member target name => do
    let v := (← m.eval caller locals target).toJson
    return .value (← need (v.member? name) (.memberNotFound (describe target v) name))
  | .call (.builtin b) args => do
    let args ← m.evalAll caller locals args
    m.callBuiltin b args
  | .call (.function index) args => do
    let invoke ← need caller .recursionLimit
    let f ← need m.compiled.module.functions[index]? (.invalidBinary (.functionSlot index))
    let args ← m.evalAll caller locals args
    invoke (bindParams f.params args) f.body
  | .call (.helper slot) args => do
    let h ← need m.compiled.program.helpers[slot]? (.invalidBinary (.helperSlot slot))
    let args ← m.evalAll caller locals args
    m.callHelper slot h args
  | .not operand => return .value (.bool (!(← m.eval caller locals operand).toJson.truthy))
  | .binary op lhs rhs => do
    let a := (← m.eval caller locals lhs).toJson
    match op with
    | .and =>
      if a.truthy then return .value (.bool (← m.eval caller locals rhs).toJson.truthy)
      else return .value (.bool false)
    | .or =>
      if a.truthy then return .value (.bool true)
      else return .value (.bool (← m.eval caller locals rhs).toJson.truthy)
    | .eq => return .value (.bool (a.looselyEqual (← m.eval caller locals rhs).toJson))
    | .ne => return .value (.bool (!a.looselyEqual (← m.eval caller locals rhs).toJson))

/-- The values of expressions, from left to right. -/
def evalAll (m : Machine σ) (caller : Caller σ) (locals : Locals) : List Expr → Evaluation σ (List Json)
  | [] => return []
  | e :: es => return (← m.eval caller locals e).toJson :: (← m.evalAll caller locals es)

end

/-- The value of an expression in which template functions call each other to a depth. -/
def evalTo (m : Machine σ) : Nat → Locals → Expr → Evaluation σ Evaluated
  | 0 => m.eval none
  | depth + 1 => m.eval (some (m.evalTo depth))

/-- The value of an expression of a statement. -/
def evalAt (m : Machine σ) (pos : Option SourcePos) (locals : Locals) (e : Expr) : Execution σ Evaluated :=
  (m.evalTo maxCallDepth locals e).at m.compiled.template pos

/-! ### Statements -/

/-- The piece for the value of an expression. -/
def piece : Evaluated → Evaluation σ Piece
  | .markup text => return .markup text
  | .value v => return .value (← print v)

/-- What an iteration walks through. -/
def items (v : Json) : Evaluation σ (List Json) := need v.items? (.notIterable v.kind)

/-- Registers a section with the locals around it. -/
def register (m : Machine σ) (index : Nat) (locals : Locals) : Execution σ Unit := do
  let action : Action := ⟨m.compiled, m.model, index, locals⟩
  let scene ← get
  match scene.context.define action.name action with
  | .ok context => set { scene with context }
  | .error c => throw (.error (.ofCause m.compiled.template c))

mutual

/-- Executes a statement: the locals for the statements after it, and its output. -/
def exec (m : Machine σ) (locals : Locals) : Stmt → Execution σ (Locals × List Piece)
  | .write text => return (locals, [.literal text])
  | .emit e pos => do
    let v ← m.evalAt pos locals e
    return (locals, [← (piece v).at m.compiled.template pos])
  | .bind name e pos => return ((name, (← m.evalAt pos locals e).toJson) :: locals, [])
  | .ifElse branches otherwise pos => do
    match ← m.execBranches locals pos branches with
    | some pieces => return (locals, pieces)
    | none => match otherwise with
      | some body => return (locals, ← m.execAll locals body)
      | none => return (locals, [])
  | .forEach name source body pos => do
    let v := (← m.evalAt pos locals source).toJson
    let vs ← (items v).at m.compiled.template pos
    let pieces ← vs.mapM fun v => m.execAll ((name, v) :: locals) body
    return (locals, pieces.flatten)
  | .defineSection index => do
    m.register index locals
    return (locals, [])

/-- Executes statements in turn. -/
def execAll (m : Machine σ) (locals : Locals) : List Stmt → Execution σ (List Piece)
  | [] => return []
  | s :: ss => do
    let (locals, pieces) ← m.exec locals s
    return pieces ++ (← m.execAll locals ss)

/-- Executes the first branch whose condition holds. -/
def execBranches (m : Machine σ) (locals : Locals) (pos : Option SourcePos) :
    List Branch → Execution σ (Option (List Piece))
  | [] => return none
  | .mk cond body :: rest => do
    if (← m.evalAt pos locals cond).toJson.truthy then return some (← m.execAll locals body)
    else m.execBranches locals pos rest

end

/-- The output of statements. -/
def output (m : Machine σ) (locals : Locals) (body : List Stmt) : Execution σ String :=
  return Piece.renderAll m.compiled.program.encoding (← m.execAll locals body)

end Machine

variable {σ : Type}

/-- The output of a section, given how the sections that it renders are rendered. -/
def Action.renderWith (a : Action) (host : Host σ) (renderSection : String → Execution σ (Option String)) :
    Execution σ String :=
  match a.section? with
  | none => throw (.error (.ofCause a.compiled.template (.invalidBinary (.sectionSlot a.index))))
  | some s => (⟨a.compiled, a.model, host, renderSection⟩ : Machine σ).output a.locals s.body

/-- The output of the visible section of a name, in which sections nest to a depth. -/
def renderSectionTo (host : Host σ) : Nat → String → Execution σ (Option String)
  | 0, name => renderVisible name fun _ => throw .exhausted
  | depth + 1, name => renderVisible name fun a => a.renderWith host (renderSectionTo host depth)

/-- The output of a section outside of any ceiling of its own. -/
def Action.render (a : Action) (host : Host σ) : Execution σ String := do
  a.renderWith host (renderSectionTo host (← get).context.depth)

/-- The output of a template's body in the top frame. -/
def CompiledTemplate.execute (t : CompiledTemplate) (model : Json) (host : Host σ) : Execution σ String := do
  let depth := (← get).context.depth
  (⟨t, model, host, renderSectionTo host depth⟩ : Machine σ).output [] t.module.body

end Stencil
