import Stencil.Compile.Template
import Stencil.Render.Context
import Stencil.TemplateError

/-!
Scenes: what the execution of a template works on. A computation changes the context and the state of the
host; the changes last even if the computation fails.
-/

namespace Stencil

/-- Why a render has no output. -/
inductive Halt
  | error (e : TemplateError)
  /-- A helper is called without an argument that its arity promises it. -/
  | missingArgument
  /-- A compilation is waited for that does not go on. -/
  | stalled
  /-- The bound on nested renders is used up; a sufficient bound is never used up. -/
  | exhausted
  /-- A body is taken off where none was put. -/
  | noBody
deriving DecidableEq

/-- Why an expression has no value: a cause that is yet to be placed, or an error of a nested render. -/
inductive Fault
  | cause (c : ExecutionCause)
  | nested (h : Halt)
deriving DecidableEq

/-- Values of local variables, latest first. -/
abbrev Locals := List (String × Json)

/-- The value of a local variable. -/
def Locals.find? (locals : Locals) (name : String) : Option Json :=
  (List.find? (·.1 == name) locals).map (·.2)

/-- A section that a render of a template has registered. -/
structure Action where
  compiled : CompiledTemplate
  model : Json
  /-- The index of the section in the template's module. -/
  index : Nat
  /-- The locals where the section was registered. -/
  locals : Locals

namespace Action

/-- The section in the template's module. -/
def section? (a : Action) : Option Ir.Section := a.compiled.module.sections[a.index]?

/-- The name of the section. -/
def name (a : Action) : String := (a.section?.map (·.name)).getD ""

end Action

/-- What an execution works on. -/
structure Scene (σ : Type) where
  context : Context Action
  host : σ

/-- An execution. -/
abbrev Execution (σ : Type) := ExceptT Halt (StateM (Scene σ))

/-- An evaluation of an expression. -/
abbrev Evaluation (σ : Type) := ExceptT Fault (StateM (Scene σ))

/-- What templates need from where they are rendered. -/
structure Host (σ : Type) where
  /-- The output of the template with a key as a partial, which has a context of its own. -/
  embed : String → ModelType → Json → σ → Except Halt String × σ

variable {σ α : Type}

/-- An execution within an evaluation. -/
def Execution.lift (x : Execution σ α) : Evaluation σ α := ExceptT.adapt .nested x

/-- An evaluation of code at a place in a template. -/
def Evaluation.at (template : String) (pos : Option SourcePos) (x : Evaluation σ α) : Execution σ α :=
  ExceptT.adapt (fun
    | .cause c => .error (.execution ⟨template, pos, c⟩)
    | .nested h => h) x

/-- Fails an evaluation. -/
def Evaluation.fail (c : ExecutionCause) : Evaluation σ α := throw (.cause c)

/-- The output of a partial. -/
def Host.partial (h : Host σ) (key : String) (modelType : ModelType) (model : Json) : Execution σ String :=
  fun scene =>
    let (result, host) := h.embed key modelType model scene.host
    (result, { scene with host })

/-- What an execution gives for the visible section of a name, with the definitions of its frame and above
hidden; nothing if none is visible. -/
def renderVisible (name : String) (render : Action → Execution σ α) : Execution σ (Option α) := fun scene =>
  let (rendered, context) := scene.context.renderSection name fun action context =>
    let (result, after) := render action ⟨context, scene.host⟩
    ((result, after.host), after.context)
  match rendered with
  | none => (.ok none, ⟨context, scene.host⟩)
  | some (result, host) => (result.map some, ⟨context, host⟩)

/-- Runs an execution in a new frame and restores the context, whatever comes out. -/
def inNewFrame (x : Execution σ α) : Execution σ α := fun scene =>
  let ((result, host), context) := scene.context.nested fun context =>
    let (result, after) := x ⟨context, scene.host⟩
    ((result, after.host), after.context)
  (result, ⟨context, host⟩)

/-- Runs an execution with an output to wrap, and takes that off again, whatever comes out. -/
def withBody (b : Body) (x : Execution σ α) : Execution σ α := fun scene =>
  let (result, after) := x { scene with context := scene.context.pushBody b }
  match after.context.popBody? with
  | some (_, context) => (result, { after with context })
  | none => (.error .noBody, after)

end Stencil
