import Stencil.Proofs.Engine.Invalidation

/-! Templates that emit one expression.

A source without problems has a program, which is what comes back from its binary; without files, the source is compiled
to it. If the program only emits one expression, the template's output is that expression's. -/

namespace Stencil

/-! ### Executing -/

section
variable {σ : Type}

theorem adapt_run {S ε ε' α : Type} (f : ε → ε') (x : ExceptT ε (StateM S) α) (s : S) :
    (ExceptT.adapt f x) s = ((x s).1.mapError f, (x s).2) := rfl

namespace Machine

/-- Emitting an expression outputs its piece. -/
theorem output_emit (m : Machine σ) (locals : Locals) (e : Ir.Expr) (pos : Option SourcePos) (scene : Scene σ) :
    m.output locals [.emit e pos] scene = match m.evalAt pos locals e scene with
      | (.error h, s) => (.error h, s)
      | (.ok v, s) => (((piece v).at m.compiled.template pos s).1.map fun p =>
          Piece.renderAll m.compiled.program.encoding [p], ((piece v).at m.compiled.template pos s).2) := by
  rw [output, bind_run, execAll, bind_run, exec, bind_run]
  rcases m.evalAt pos locals e scene with ⟨_ | v, s⟩
  · rfl
  · dsimp only
    rw [bind_run]
    rcases (piece v).at m.compiled.template pos s with ⟨_ | v, s⟩ <;> rfl

theorem evalAt_embed (m : Machine σ) (key : String) (pos : Option SourcePos) (locals : Locals) (scene : Scene σ) :
    m.evalAt pos locals (.call (.builtin .embed) [.literal (.string key), .model]) scene =
      ((m.host.embed key .dynamic m.model scene.host).1.map .markup,
        { scene with host := (m.host.embed key .dynamic m.model scene.host).2 }) := by
  have hargs : ∀ caller, m.evalAll caller locals [.literal (.string key), .model] scene = (.ok [.string key, m.model], scene) :=
    fun _ => rfl
  have hpartial : (m.host.partial key .dynamic m.model).lift scene =
      ((m.host.embed key .dynamic m.model scene.host).1.mapError .nested,
        { scene with host := (m.host.embed key .dynamic m.model scene.host).2 }) := rfl
  have hcall : m.callBuiltin .embed [.string key, m.model] scene =
      ((m.host.embed key .dynamic m.model scene.host).1.mapError .nested |>.map .markup,
        { scene with host := (m.host.embed key .dynamic m.model scene.host).2 }) := by
    show ((m.host.partial key .dynamic m.model).lift >>= fun text => pure (.markup text) : Evaluation σ Evaluated) scene = _
    rw [bind_run, hpartial]
    rcases m.host.embed key .dynamic m.model scene.host with ⟨_ | _, _⟩ <;> rfl
  have heval : m.evalTo maxCallDepth locals (.call (.builtin .embed) [.literal (.string key), .model]) scene =
      m.callBuiltin .embed [.string key, m.model] scene := by
    show (m.evalAll _ locals _ >>= fun args => m.callBuiltin .embed args) scene = _
    rw [bind_run, hargs]
  rw [evalAt, Evaluation.at, adapt_run, heval, hcall]
  rcases m.host.embed key .dynamic m.model scene.host with ⟨_ | _, _⟩ <;> rfl

theorem evalAt_member (m : Machine σ) {name : String} {v : Json} (h : m.model.member? name = some v)
    (pos : Option SourcePos) (locals : Locals) (scene : Scene σ) :
    m.evalAt pos locals (.member .model name) scene = (.ok (.value v), scene) := by
  show (((need (m.model.member? name) _ >>= fun v => pure (.value v) : Evaluation σ Evaluated) scene).1.mapError _,
    ((need (m.model.member? name) _ >>= fun v => pure (.value v) : Evaluation σ Evaluated) scene).2) = _
  rw [h]
  rfl

end Machine

/-- A template that only emits a partial leaves what the partial leaves. -/
theorem CompiledTemplate.execute_embeds {t : CompiledTemplate} {key : String} {pos : Option SourcePos}
    (hbody : t.module.body = [.emit (.call (.builtin .embed) [.literal (.string key), .model]) pos]) (model : Json)
    (host : Host σ) (scene : Scene σ) :
    (t.execute model host scene).2.host = (host.embed key .dynamic model scene.host).2 := by
  rw [execute_run, hbody, Machine.output_emit, Machine.evalAt_embed]
  rcases host.embed key .dynamic model scene.host with ⟨_ | _, _⟩ <;> rfl

end

/-! ### Compiling -/

/-- The program of a source without problems, as it comes back from its binary. -/
def Engine.program? (e : Engine) (source : TemplateSource) (imports : List TemplateSource) (modelType : ModelType) : Option Program := do
  let context := e.typeContext source.key modelType
  let references := e.compiler.resolver e.references e.compiler.defaultReferences
  let unit ← (e.generator.generate source imports context).toOption
  let tree ← (Unit.Tree.ofSource unit.source).toOption
  let lowered ← tree.lower? (e.compiler.options context).toLoweringOptions references
  let m ← lowered.compiled.filter fun m => lowered.problems.isEmpty && decide (m.toJson.nesting ≤ Ir.maxNesting)
  (Program.link (← m.reread?) references e.compiler.baseTypes).toOption

/-- A source that has a program is compiled to it without files. -/
theorem Engine.compileSource_of_program? {e : Engine} (htoolchain : e.compiler.toolchain = Unit.build) {source : TemplateSource}
    {imports : List TemplateSource} {modelType : ModelType} {p : Program} (h : e.program? source imports modelType = some p)
    {w : Workshop} (hw : w.artifacts.folder = none) :
    ∃ t, (e.compileSource source imports modelType w).1 = .ok t ∧ t.program = p := by
  unfold program? at h
  simp only [Option.bind_eq_bind, Option.bind_eq_some_iff] at h
  obtain ⟨unit, hunit, tree, htree, lowered, hlowered, m, hm, m', hm', hp⟩ := h
  obtain ⟨hcompiled, hgood⟩ := Option.filter_eq_some_iff.mp hm
  obtain ⟨hproblems, hnesting⟩ := Bool.and_eq_true_iff.mp hgood
  have hbuild : e.compiler.toolchain unit.source (e.compiler.options (e.typeContext source.key modelType))
      (e.compiler.resolver e.references e.compiler.defaultReferences) = ⟨some (m.encode e.compiler.debug), []⟩ := by
    rw [htoolchain, Unit.build, eq_ok_of_toOption htree]
    dsimp only
    rw [hlowered]
    dsimp only
    rw [hcompiled, List.isEmpty_iff.mp hproblems]
    rfl
  have hload : Program.load (m.encode e.compiler.debug) (e.compiler.resolver e.references e.compiler.defaultReferences)
      e.compiler.baseTypes = .ok p := by
    rw [Program.load, Ir.Module.decode?_encode, if_pos (of_decide_eq_true hnesting), hm']
    exact eq_ok_of_toOption hp
  have hcompile := Compiler.compile_in_memory hw (congrArg BuildOutput.hasErrors hbuild) (congrArg (·.binary) hbuild)
  rw [hload] at hcompile
  rw [compileSource, bind_run, eq_ok_of_toOption hunit]
  show ∃ t, ((e.compiler.compile unit (e.typeContext source.key modelType) e.references >>= _ : Compilation _) w).1 = .ok t ∧ _
  rw [bind_run, hcompile]
  exact ⟨_, rfl, rfl⟩

/-- A program that emits one expression and has no layout. -/
def Program.Emits (p : Program) (test : Ir.Expr → Bool) : Bool :=
  p.encoding == .raw && p.module.layout.isNone && match p.module.body with
    | [.emit e _] => test e
    | _ => false

theorem Program.emits_iff {p : Program} {test : Ir.Expr → Bool} (h : p.Emits test = true) :
    p.encoding = .raw ∧ p.module.layout = none ∧ ∃ e pos, p.module.body = [.emit e pos] ∧ test e = true := by
  unfold Emits at h
  rw [Bool.and_eq_true, Bool.and_eq_true, Option.isNone_iff_eq_none] at h
  obtain ⟨⟨hraw, hlayout⟩, hbody⟩ := h
  refine ⟨by simpa using hraw, hlayout, ?_⟩
  split at hbody
  · rename_i e pos heq
    exact ⟨e, pos, heq, hbody⟩
  · cases hbody

/-- What has a program that emits one expression is compiled to it without files. -/
theorem Engine.compilation_emits (e : Engine) (htoolchain : e.compiler.toolchain = Unit.build) (key : String)
    {source : TemplateSource} {imports : List TemplateSource} (hsource : e.readSource key = .ok source)
    (himports : e.readImports key = .ok imports) {modelType : ModelType} {test : Ir.Expr → Bool}
    (h : (e.program? source imports modelType).any (·.Emits test) = true) {w : Workshop} (hw : w.artifacts.folder = none) :
    ∃ t w', e.compilation key modelType w = (.ok t, w') ∧ w'.artifacts.folder = none ∧ t.program.Emits test = true := by
  rcases hp : e.program? source imports modelType with _ | p
  · rw [hp] at h
    cases h
  · rw [hp] at h
    obtain ⟨t, ht, rfl⟩ := e.compileSource_of_program? htoolchain hp hw
    obtain ⟨_, -, hsettled⟩ := e.compileSource_settled source imports modelType
    rw [Engine.compilation_run hsource himports]
    exact ⟨t, _, Prod.ext ht rfl, (congrArg ArtifactStore.folder (hsettled w hw).2).trans hw, h⟩

/-! ### Rendering -/

namespace Engine

/-- What is stored under a key stays while an engine renders. -/
theorem load_entry? (e : Engine) (k : CacheKey) (entry : CacheEntry CompiledTemplate) (key : String) (modelType : ModelType)
    (s : EngineState) (h : s.cache.inFlight = [] ∧ s.cache.entry? k = some entry) :
    (e.load key modelType s).2.cache.inFlight = [] ∧ (e.load key modelType s).2.cache.entry? k = some entry := by
  rw [load_eq]
  rcases hentry : s.cache.entry? (.of key modelType) with _ | other
  · rw [getOrCompile_missing hentry h.1]
    have hne : k ≠ .of key modelType := by
      rintro rfl
      rw [h.2] at hentry
      cases hentry
    cases (e.compilation key modelType s.workshop).1 with
    | error _ => exact ⟨rfl, h.2⟩
    | ok t => exact ⟨rfl, (List.find?_cons_of_neg (by simpa using hne.symm)).trans h.2⟩
  · rw [getOrCompile_stored hentry]
    exact h

/-- A partial that is compiled for a template stays stored. -/
theorem embed_stores (e : Engine) (room : Nat) {chain chain' : RenderChain} {key : String}
    (hchain : chain.enterPartial key = .ok chain') {modelType : ModelType} {s : EngineState} (hidle : s.cache.inFlight = [])
    (hmissing : s.cache.entry? (.of key modelType) = none) {t : CompiledTemplate} {w : Workshop}
    (ht : e.compilation key modelType s.workshop = (.ok t, w)) (v : Json) :
    let after := ((e.host (some (e.renderer room)) chain).embed key modelType v s).2
    after.cache.inFlight = [] ∧ after.cache.entry? (.of key modelType) = some ⟨.of key modelType, s.cache.next, t⟩ := by
  have hload : e.load key modelType s = (.ok t, ⟨s.cache.settle (.of key modelType) (.ok t), w⟩) := by
    rw [load_eq, getOrCompile_missing hmissing hidle, ht]
    rfl
  have hstored : (EngineState.mk (s.cache.settle (.of key modelType) (.ok t)) w).cache.entry? (.of key modelType) =
      some ⟨.of key modelType, s.cache.next, t⟩ := List.find?_cons_of_pos (by exact beq_self_eq_true _)
  have hrun : ((e.host (some (e.renderer room)) chain).embed key modelType v s).2 =
      (renderFresh (e.renderer room) t modelType v chain' .part ⟨s.cache.settle (.of key modelType) (.ok t), w⟩).2 := by
    show ((entered (chain.enterPartial key) >>= _ : EngineCall String) s).2 = _
    rw [bind_run, entered_run, hchain]
    show ((e.load key modelType >>= _ : EngineCall String) s).2 = _
    rw [bind_run, hload]
    rfl
  have hkept := renderer_within (e.load_entry? (.of key modelType) ⟨.of key modelType, s.cache.next, t⟩) room t modelType v
    chain' .part []
  dsimp only
  rw [hrun]
  exact (renderFresh_keeps hkept ⟨rfl, hstored⟩).1

/-- A page that only emits a partial leaves what the partial leaves. -/
theorem renderPage_embeds (e : Engine) {t : CompiledTemplate} (room : Nat) {chain : RenderChain} (hroom : chain.room = room + 1)
    (hlayout : t.layout = none) {key : String} {pos : Option SourcePos}
    (hbody : t.module.body = [.emit (.call (.builtin .embed) [.literal (.string key), .model]) pos]) (modelType : ModelType)
    (model : Json) (s : EngineState) : (e.renderPage t modelType model chain s).2 =
      ((e.host (some (e.renderer room)) chain).embed key .dynamic model s).2 := by
  have hrender : e.renderer chain.room t modelType model chain .page = t.execute model (e.host (some (e.renderer room)) chain) := by
    rw [hroom]
    exact renderWith_of_no_layout hlayout _ modelType model chain .page
  show (inNewFrame (e.renderer chain.room t modelType model chain .page) ⟨{}, s⟩).2.host = _
  rw [hrender]
  exact CompiledTemplate.execute_embeds hbody model _ _

/-- A page that only emits a text of its model is the text. -/
theorem renderPage_member (e : Engine) {t : CompiledTemplate} (hlayout : t.layout = none) (hraw : t.program.encoding = .raw)
    {name text : String} {pos : Option SourcePos} (hbody : t.module.body = [.emit (.member .model name) pos]) {model : Json}
    (hmodel : model.member? name = some (.string text)) (modelType : ModelType) (chain : RenderChain) (s : EngineState) :
    (e.renderPage t modelType model chain s).1 = .ok text := by
  obtain ⟨next, hnext⟩ := @renderer_of_no_layout e t hlayout chain.room modelType model chain .page
  show (inNewFrame (e.renderer chain.room t modelType model chain .page) ⟨{}, s⟩).1 = _
  rw [hnext]
  show (t.execute model (e.host next chain) _).1 = _
  rw [CompiledTemplate.execute_run, hbody, Machine.output_emit, Machine.evalAt_member _ hmodel]
  show Except.ok (Piece.renderAll t.program.encoding [.value text]) = _
  rw [hraw]
  simp [Piece.renderAll, Piece.render, String.join]

/-- What cannot be compiled is not rendered. -/
theorem run_refused {e : Engine} (hdepth : e.settings.runtime.maxLayoutDepth ≠ 0) {key : String} {modelType : ModelType}
    {s : EngineState} (hmissing : s.cache.entry? (.of key modelType) = none) (hidle : s.cache.inFlight = [])
    (h : (e.compilation key modelType s.workshop).1.toOption.isSome = false) (model : Json) :
    ∃ h, (e.run key modelType model s).1 = .error h := by
  rw [run_missing hdepth hmissing hidle]
  rcases hcompile : e.compilation key modelType s.workshop with ⟨err | t, w⟩
  · exact ⟨.error err, rfl⟩
  · rw [hcompile] at h
    cases h

end Engine

end Stencil
