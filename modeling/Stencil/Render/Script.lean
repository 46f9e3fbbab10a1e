import Stencil.Render.Context

/-!
Scripts: sequences of operations on a context, with nested renders and section renders that run a script
inside and may break off at its end.
-/

namespace Stencil

/-- An operation on a context. -/
inductive Step (α : Type)
  | define (name : String) (action : α)
  | lookup (name : String)
  | push (body : Body)
  | pop
  | body
  | depth
  /-- Runs steps in a nested frame, and then may break off. -/
  | nested (steps : List (Step α)) (breaksOff : Bool)
  /-- Renders a section, which runs steps and then may break off. -/
  | render (name : String) (steps : List (Step α)) (breaksOff : Bool)

/-- What an operation on a context gives. -/
inductive Outcome (α : Type)
  | defined
  | refused (cause : ExecutionCause)
  /-- The action that was found. -/
  | found (action : Option α)
  | pushed
  | popped (body : Body)
  /-- There was no body to pop. -/
  | underflow
  | body (current : Option Body)
  | depth (n : Nat)
  /-- A nested render, and whether the context is as before. -/
  | nested (outcomes : List (Outcome α)) (brokeOff restored : Bool)
  /-- A section render: the action, if one was visible. -/
  | rendered (action : Option α) (outcomes : List (Outcome α)) (brokeOff unchanged : Bool)

variable {α : Type} [DecidableEq α]

mutual

/-- Runs an operation. -/
def Step.run (c : Context α) : Step α → Outcome α × Context α
  | .define name action =>
    match c.define name action with
    | .ok c => (.defined, c)
    | .error cause => (.refused cause, c)
  | .lookup name => (.found (c.action? name), c)
  | .push b => (.pushed, c.pushBody b)
  | .pop =>
    match c.popBody? with
    | some (b, c) => (.popped b, c)
    | none => (.underflow, c)
  | .body => (.body c.bodies.head?, c)
  | .depth => (.depth c.depth, c)
  | .nested steps breaksOff =>
    let (outcomes, after) := c.nested fun c => Step.runAll c steps
    (.nested outcomes breaksOff (decide (after = c)), after)
  | .render name steps breaksOff =>
    match c.renderSection name fun action c => let (os, c) := Step.runAll c steps; ((action, os), c) with
    | (some (action, outcomes), after) =>
      (.rendered (some action) outcomes breaksOff (decide (after = c)), after)
    | (none, after) => (.rendered none [] false (decide (after = c)), after)

/-- Runs operations in turn. -/
def Step.runAll (c : Context α) : List (Step α) → List (Outcome α) × Context α
  | [] => ([], c)
  | s :: ss =>
    let (o, c) := s.run c
    let (os, c) := Step.runAll c ss
    (o :: os, c)

end

end Stencil
