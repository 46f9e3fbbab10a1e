import Stencil.Cache.Basic
import Stencil.Compile.Compiler
import Stencil.Config.Settings
import Stencil.Render.Chain
import Stencil.Render.Interpreter
import Stencil.Source.Item

/-!
Engines. An engine reads templates from a provider, compiles them unless they are stored, and renders them with
their layouts and partials. A template runs in a frame of its own; its layout then runs in a frame above, with
the template's output as the body and its sections visible. A layout that an import file declares applies to
pages only; layouts and partials follow the layouts that they declare themselves.
-/

namespace Stencil

/-- What a template is rendered as. -/
inductive Role
  | page
  | layout
  | part
deriving DecidableEq

/-- An engine. -/
structure Engine where
  settings : Settings := {}
  sources : SourceProvider
  generator : Unit.Generator := {}
  compiler : Compiler := {}
  baseType : BaseType := .html
  references : List Reference := []

/-- What the calls of an engine leave behind. -/
structure EngineState where
  cache : Cache CompiledTemplate := {}
  workshop : Workshop := {}

/-- A call of an engine. -/
abbrev EngineCall := ExceptT Halt (StateM EngineState)

namespace Engine

/-! ### Loading -/

/-- The digest that a compilation keeps of its template's text. -/
def contentDigest (content : String) : String := Sha256.hexDigest content.toUTF8.toList

/-- The error for a template that cannot be read. -/
def sourceFailure (key : String) : SourceFault → TemplateError
  | .notFound _ => .ofCause key (.templateNotFound key)
  | fault => .ofCause key (.sourceUnreadable key fault)

/-- The text of a template. -/
def readSource (e : Engine) (key : String) : Except TemplateError TemplateSource :=
  match e.sources.item key with
  | .error fault => .error (sourceFailure key fault)
  | .ok item => item.read.mapError (sourceFailure key)

/-- The texts of the import files that apply to a template. -/
def readImports (e : Engine) (key : String) : Except TemplateError (List TemplateSource) :=
  match e.sources.imports key e.settings.source.importsFileName with
  | .error fault => .error (sourceFailure key fault)
  | .ok items => items.mapM fun item => item.read.mapError (sourceFailure item.key)

/-- What a template is compiled for. -/
def typeContext (e : Engine) (key : String) (modelType : ModelType) : TypeContext where
  className := .forTemplate key modelType
  namespaces := Text.sortedSet e.settings.compiler.namespaces
  baseType := e.baseType
  modelType := modelType

/-- Compiles a template with its import files. -/
def compileSource (e : Engine) (source : TemplateSource) (imports : List TemplateSource)
    (modelType : ModelType) : Compilation CompiledTemplate := do
  let context := e.typeContext source.key modelType
  let unit ← ExceptT.mk (pure ((e.generator.generate source imports context).mapError .parse))
  let compiled ← e.compiler.compile unit context e.references
  return { compiled with digest := some (contentDigest source.content) }

/-- The stored compilation of a key, which is made first if it is missing. -/
def getOrCompile (key : CacheKey) (compile : Compilation CompiledTemplate) : EngineCall CompiledTemplate :=
  fun s =>
    match s.cache.lookup key with
    | (.hit entry, cache) => (.ok entry.value, { s with cache })
    | (.wait _, cache) => (.error .stalled, { s with cache })
    | (.lead slot, cache) =>
      let (outcome, workshop) := compile.run s.workshop
      (outcome.mapError .error, { cache := cache.complete key slot outcome, workshop })

/-- The compilation of the template with a key. -/
def load (e : Engine) (key : String) (modelType : ModelType) : EngineCall CompiledTemplate :=
  getOrCompile (.of key modelType) do
    let source ← ExceptT.mk (pure (e.readSource key))
    let imports ← ExceptT.mk (pure (e.readImports key))
    e.compileSource source imports modelType

/-! ### Rendering -/

/-- The layout names the template itself. -/
def namesItself (layout template : String) : Bool :=
  match TemplateKey.normalize layout, TemplateKey.normalize template with
  | .ok a, .ok b => a == b
  | _, _ => false

/-- The layout that a template is wrapped in. -/
def layoutToFollow (t : CompiledTemplate) (role : Role) : Option String :=
  t.layout.filter fun layout =>
    !t.module.layoutInherited || (role == .page && !namesItself layout t.template)

/-- How a template that the chain has entered is rendered in the top frame. -/
abbrev Renderer := CompiledTemplate → ModelType → Json → RenderChain → Role → Execution EngineState String

/-- Something to be done for a call of the engine within a render. -/
def within (x : EngineCall α) : Execution EngineState α := fun scene =>
  let (result, host) := x.run scene.host
  (result, { scene with host })

/-- Renders a template and its layouts with a fresh context. -/
def renderFresh (render : Renderer) (t : CompiledTemplate) (modelType : ModelType) (model : Json)
    (chain : RenderChain) (role : Role) : EngineCall String := fun s =>
  let (result, scene) := (inNewFrame (render t modelType model chain role)).run ⟨{}, s⟩
  (result, scene.host)

/-- An entered chain, or its error. -/
def entered (chain : Except TemplateError RenderChain) : EngineCall RenderChain :=
  ExceptT.mk (pure (chain.mapError .error))

/-- How the templates further inside are rendered, if the chain can take any. -/
def inside (next : Option Renderer) : EngineCall Renderer :=
  match next with
  | some render => return render
  | none => throw .exhausted

/-- Renders partials for a template in a chain. -/
def host (e : Engine) (next : Option Renderer) (chain : RenderChain) : Host EngineState where
  embed key modelType model := (do
    let chain ← entered (chain.enterPartial key)
    let compiled ← e.load key modelType
    renderFresh (← inside next) compiled modelType model chain .part : EngineCall String).run

/-- Renders a template in the top frame, and then its layout around it. -/
def renderWith (e : Engine) (next : Option Renderer) : Renderer := fun t modelType model chain role => do
  let body ← t.execute model (e.host next chain)
  match layoutToFollow t role with
  | none => return body
  | some key =>
    let chain ← within (entered (chain.enter key))
    let layout ← within (e.load key modelType)
    let render ← within (inside next)
    inNewFrame (withBody ⟨t.template, body⟩ (render layout modelType model chain .layout))

/-- Renders a template whose chain can take a number of templates more. -/
def renderer (e : Engine) : Nat → Renderer
  | 0 => e.renderWith none
  | room + 1 => e.renderWith (some (e.renderer room))

/-- Renders a page. -/
def renderPage (e : Engine) (t : CompiledTemplate) (modelType : ModelType) (model : Json)
    (chain : RenderChain) : EngineCall String :=
  renderFresh (e.renderer chain.room) t modelType model chain .page

/-- The chain of a page. -/
def pageChain (e : Engine) (key : String) : EngineCall RenderChain :=
  entered (({ maxDepth := e.settings.runtime.maxLayoutDepth } : RenderChain).enter key)

/-! ### Calls -/

/-- Renders the template with a key. -/
def run (e : Engine) (key : String) (modelType : ModelType) (model : Json) : EngineCall String := do
  let chain ← e.pageChain key
  let compiled ← e.load key modelType
  e.renderPage compiled modelType model chain

/-- Renders a text as the template with a key. What is stored for the key is rendered instead, with a notice if
it was made from another text. -/
def runText (e : Engine) (key content : String) (modelType : ModelType) (model : Json) :
    EngineCall String := do
  let chain ← e.pageChain key
  let compiled ← getOrCompile (.of key modelType) do
    let imports ← ExceptT.mk (pure (e.readImports key))
    e.compileSource ⟨key, content, none⟩ imports modelType
  if compiled.digest ≠ some (contentDigest content) then
    modify fun s => { s with
      workshop := { s.workshop with notices := s.workshop.notices ++ [.contentDiffers key] } }
  e.renderPage compiled modelType model chain

/-- Stores the compilation of the template with a key. -/
def compile (e : Engine) (key : String) (modelType : ModelType) : EngineCall Unit := do
  discard (e.load key modelType)

/-- A compilation of the template is stored. -/
def isCached (s : EngineState) (key : String) (modelType : ModelType) : Bool :=
  s.cache.contains (.of key modelType)

/-- Removes the stored compilations of a template, and says how many there were. -/
def invalidate (key : String) : EngineCall Nat := fun s =>
  (.ok (s.cache.count key), { s with cache := s.cache.invalidate key })

end Engine

end Stencil
