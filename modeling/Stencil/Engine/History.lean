import Stencil.Engine.Basic
import Stencil.Source.Memory

/-!
Engines over time. A request is one call of an engine, and its answer is the reply or the reason why there is none. An
engine that reads its templates from memory is live if they may change between its requests: templates are added,
replaced and removed, which does not touch what the engine has stored.
-/

namespace Stencil

/-- A call of an engine that reads its templates from its provider. -/
inductive EngineRequest
  | run (key : String) (modelType : ModelType) (model : Json)
  | compile (key : String) (modelType : ModelType)
  | invalidate (key : String)

/-- What a call of an engine replies. -/
inductive EngineReply
  | output (text : String)
  | compiled
  /-- How many compilations were removed. -/
  | removed (n : Nat)
deriving DecidableEq

/-- A reply whatever the number of compilations was. -/
def EngineReply.countless : EngineReply → EngineReply
  | removed _ => removed 0
  | reply => reply

namespace EngineRequest

/-- The model type that a request names. -/
def modelType? : EngineRequest → Option ModelType
  | run _ modelType _ | compile _ modelType => some modelType
  | invalidate _ => none

/-- Serves a request. -/
def perform (e : Engine) : EngineRequest → EngineCall EngineReply
  | run key modelType model => return .output (← e.run key modelType model)
  | compile key modelType => do
    e.compile key modelType
    return .compiled
  | invalidate key => return .removed (← Engine.invalidate key)

end EngineRequest

/-- The answers of an engine to requests, one after the other, and what they leave behind. -/
def Engine.answers (e : Engine) : List EngineRequest → EngineState → List (Except Halt EngineReply) × EngineState
  | [], s => ([], s)
  | r :: rs, s =>
    let (answer, s) := r.perform e s
    let (answers, s) := e.answers rs s
    (answer :: answers, s)

/-- What happens to an engine whose templates are in memory. -/
inductive EngineEvent
  | request (r : EngineRequest)
  /-- A text is rendered as the template with a key. -/
  | runText (key content : String) (modelType : ModelType) (model : Json)
  /-- Everything that is stored is removed. -/
  | clear
  | insert (key content : String)
  | remove (key : String)

/-- An engine with the templates that it reads from memory and with what its calls have left behind. -/
structure LiveEngine where
  base : Engine
  source : MemorySource
  state : EngineState

namespace LiveEngine

/-- The engine over the templates as they are. -/
def engine (l : LiveEngine) : Engine := { l.base with sources := l.source.provider }

/-- What becomes of a live engine; a template that cannot be inserted or is not there to be removed changes nothing. -/
def step (l : LiveEngine) : EngineEvent → LiveEngine
  | .request r => { l with state := (r.perform l.engine l.state).2 }
  | .runText key content modelType model =>
    { l with state := (l.engine.runText key content modelType model l.state).2 }
  | .clear => { l with state := { l.state with cache := l.state.cache.clear } }
  | .insert key content => { l with source := (l.source.insert key content).toOption.getD l.source }
  | .remove key => { l with source := (l.source.remove? key).getD l.source }

/-- What becomes of a live engine in the course of events. -/
def after (l : LiveEngine) (events : List EngineEvent) : LiveEngine := events.foldl step l

end LiveEngine

end Stencil
