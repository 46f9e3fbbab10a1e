import Stencil.Engine.Builder
import Stencil.Source.Memory
import Stencil.Proofs.Markup.LiteralText
import Stencil.Proofs.Render.Keeps
import Stencil.Proofs.Unit.Writing

/-! Literal text comes out as it went in.

A template in which every at sign of a text is doubled passes through all stages: it is read as the text, the unit that
is generated from it writes the text, the unit is built and loaded, and running the program outputs the text. -/

namespace Stencil

open Ir (Stmt)

/-! ### Executing -/

section
variable {σ : Type}

theorem Machine.execAll_writes (m : Machine σ) (locals : Locals) (texts : List String) (scene : Scene σ) :
    m.execAll locals (texts.map .write) scene = (.ok (texts.map .literal), scene) := by
  induction texts with
  | nil => rfl
  | cons text texts ih =>
    rw [List.map_cons, Machine.execAll, bind_run]
    show (m.execAll locals (texts.map .write) >>= fun pieces => pure ([.literal text] ++ pieces)) scene = _
    rw [bind_run, ih]
    rfl

theorem Piece.renderAll_literals (encoding : Encoding) (texts : List String) :
    Piece.renderAll encoding (texts.map .literal) = String.join texts := by
  rw [Piece.renderAll, List.map_map]
  have hrender : Piece.render encoding ∘ .literal = id := by
    funext text
    cases encoding <;> rfl
  rw [hrender, List.map_id]

/-- A template that only writes texts outputs them. -/
theorem CompiledTemplate.execute_writes {t : CompiledTemplate} {texts : List String} (h : t.module.body = texts.map .write)
    (model : Json) (host : Host σ) (scene : Scene σ) :
    t.execute model host scene = (.ok (String.join texts), scene) := by
  have houtput : ∀ m : Machine σ, m.output [] t.module.body scene = (.ok (String.join texts), scene) := by
    intro m
    rw [Machine.output, bind_run, h, Machine.execAll_writes]
    show (Except.ok (Piece.renderAll _ (texts.map .literal)), scene) = _
    rw [Piece.renderAll_literals]
  rw [CompiledTemplate.execute_run]
  exact houtput _

end

namespace Engine

variable {e : Engine} {t : CompiledTemplate}

theorem renderWith_of_no_layout (ht : t.layout = none) (next : Option Renderer) (modelType : ModelType) (model : Json)
    (chain : RenderChain) (role : Role) :
    e.renderWith next t modelType model chain role = t.execute model (e.host next chain) := by
  have hlayout : layoutToFollow t role = none := by
    rw [layoutToFollow, ht]
    rfl
  rw [renderWith, hlayout]
  exact bind_pure _

/-- A template without a layout is rendered as its own output. -/
theorem renderer_of_no_layout (ht : t.layout = none) (room : Nat) (modelType : ModelType) (model : Json) (chain : RenderChain)
    (role : Role) : ∃ next, e.renderer room t modelType model chain role = t.execute model (e.host next chain) := by
  cases room with
  | zero => exact ⟨none, renderWith_of_no_layout ht none modelType model chain role⟩
  | succ room => exact ⟨some (e.renderer room), renderWith_of_no_layout ht _ modelType model chain role⟩

/-- Rendering the page of a template that only writes texts and has no layout gives the texts, and leaves nothing. -/
theorem renderPage_writes_run {texts : List String} (hbody : t.module.body = texts.map .write) (ht : t.layout = none)
    (modelType : ModelType) (model : Json) (chain : RenderChain) (s : EngineState) :
    e.renderPage t modelType model chain s = (.ok (String.join texts), s) := by
  obtain ⟨next, hnext⟩ := @renderer_of_no_layout e t ht chain.room modelType model chain .page
  show ((inNewFrame (e.renderer chain.room t modelType model chain .page) ⟨{}, s⟩).1,
    (inNewFrame (e.renderer chain.room t modelType model chain .page) ⟨{}, s⟩).2.host) = _
  rw [hnext]
  show ((t.execute model (e.host next chain) _).1, (t.execute model (e.host next chain) _).2.host) = _
  rw [CompiledTemplate.execute_writes hbody]

/-- The page of a template that only writes texts and has no layout is the texts. -/
theorem renderPage_writes {texts : List String} (hbody : t.module.body = texts.map .write) (ht : t.layout = none)
    (modelType : ModelType) (model : Json) (chain : RenderChain) (s : EngineState) :
    (e.renderPage t modelType model chain s).1 = .ok (String.join texts) :=
  congrArg Prod.fst (renderPage_writes_run hbody ht modelType model chain s)

/-- What nobody has stored is compiled. -/
theorem getOrCompile_of_lead {key : CacheKey} {compile : Compilation CompiledTemplate} {s : EngineState} {slot : Nat}
    {cache : Cache CompiledTemplate} {outcome : Except TemplateError CompiledTemplate}
    (hlead : s.cache.lookup key = (.lead slot, cache)) (h : (compile s.workshop).1 = outcome) :
    ∃ s', getOrCompile key compile s = (outcome.mapError .error, s') := by
  obtain rfl := h
  refine ⟨{ cache := cache.complete key slot (compile s.workshop).1, workshop := (compile s.workshop).2 }, ?_⟩
  unfold getOrCompile
  rw [hlead]
  rfl

end Engine

/-! ### The engine -/

/-- The parts of an engine that has a base type and a setting for pragmas, and else the defaults. -/
def plainParts (base : BaseType) (pragmas : Bool) (sources : SourceProvider) : EngineParts where
  settings := { compiler := { baseType := base.name, linePragmas := pragmas } }
  sources := sources

/-- The engine of these parts. -/
def plainEngine (base : BaseType) (pragmas : Bool) (sources : SourceProvider) : Engine where
  settings := (plainParts base pragmas sources).settings
  sources := sources
  generator := { pragmas }
  baseType := base

/-- What this engine compiles a template without a model type for. -/
def plainContext (base : BaseType) (className : ClassName) : TypeContext where
  className := className
  baseType := base

section
variable {base : BaseType} {pragmas : Bool} {sources : SourceProvider} {s : String}

theorem fault?_plain : ∀ base ∈ BaseType.builtins, ∀ pragmas : Bool,
    ({ compiler := { baseType := base.name, linePragmas := pragmas } } : Settings).fault? = none := by
  decide

theorem find?_builtin : ∀ base ∈ BaseType.builtins, BaseType.find? BaseType.builtins base.name = some base := by
  decide

theorem build_plainParts (hbase : base ∈ BaseType.builtins) (pragmas : Bool) (sources : SourceProvider) :
    (plainParts base pragmas sources).build = .ok (plainEngine base pragmas sources, {}) := by
  have hfault : (plainParts base pragmas sources).settings.fault? = none := fault?_plain base hbase pragmas
  have hfind : BaseType.find? (plainParts base pragmas sources).allBaseTypes
      (plainParts base pragmas sources).settings.compiler.baseType = some base := find?_builtin base hbase
  rw [EngineParts.build, hfault]
  dsimp only
  rw [hfind]
  rfl

/-- The names that a built-in base type brings into a unit are names, and what it requires is among the default
references. -/
theorem builtin_names : ∀ base ∈ BaseType.builtins, Text.isDottedName base.name.toList = true ∧
    ∀ n ∈ base.requiredNamespaces, Text.isDottedName n.toList = true ∧
      (Reference.find? (ReferenceResolver.default [] Library.defaults) n).isSome = true := by
  decide

theorem dotted_builtin (hbase : base ∈ BaseType.builtins) (className : ClassName) :
    Unit.Dotted BaseType.builtins (plainContext base className) where
  base := (builtin_names base hbase).1
  model := (by decide : Text.isDottedName ModelType.dynamic.name.toList = true)
  namespaces _ h := absurd h List.not_mem_nil
  required b hb n hn := by
    have hmem : b ∈ BaseType.builtins := by
      rcases List.mem_cons.mp hb with rfl | hb
      · exact hbase
      · exact hb
    exact ((builtin_names b hmem).2 n hn).1

/-- The namespaces that the unit of a template without directives uses are among the default references. -/
theorem find?_usedNamespaces (hbase : base ∈ BaseType.builtins) (className : ClassName) :
    ∀ n ∈ Unit.usedNamespaces BaseType.builtins (plainContext base className) .nothing,
      (Reference.find? (ReferenceResolver.default [] Library.defaults) n).isSome = true := by
  intro n hn
  have hmem : n ∈ base.requiredNamespaces ++ [] ++ [] := Text.mem_sortedSet.mp hn
  rw [List.append_nil, List.append_nil] at hmem
  exact ((builtin_names base hbase).2 n hmem).2

/-- The unit of the template of a text has the lines for its runs. -/
theorem generate_literalTemplate (base : BaseType) (pragmas : Bool) {source : TemplateSource}
    (hcontent : source.content = Markup.literalTemplate s) (className : ClassName) (modelType : ModelType) :
    ∃ unit pos, ({ pragmas } : Unit.Generator).generate source [] { plainContext base className with modelType } = .ok unit ∧
      unit.template = source.key ∧ unit.source = Unit.Line.render (Unit.textLines pragmas source.key (Markup.textRuns s) pos
        BaseType.builtins { plainContext base className with modelType }) := by
  obtain ⟨pos, hparse⟩ := Markup.parse_literalTemplate source.key s
  rw [← hcontent] at hparse
  refine ⟨⟨source.key, className, _, source.path⟩, pos, ?_, rfl, rfl⟩
  rw [Unit.Generator.generate]
  show (Markup.parse source.key source.content >>= _) = _
  rw [hparse]
  rfl

/-- The template of a text is compiled to a program that writes the text, if the name of the model type reads as a name. -/
theorem compileSource_named (hbase : base ∈ BaseType.builtins) (pragmas : Bool) (sources : SourceProvider)
    {source : TemplateSource} (hcontent : source.content = Markup.literalTemplate s) {modelType : ModelType} {name : String}
    (hname : Unit.ReadsAs modelType.name name) {w : Workshop} (hw : w.artifacts.folder = none) :
    ∃ t, ((plainEngine base pragmas sources).compileSource source [] modelType w).1 = .ok t ∧
      t.module.body = (Markup.textRuns s).map .write ∧ t.layout = none ∧
      t.digest = some (Engine.contentDigest source.content) := by
  let className := ClassName.forTemplate source.key modelType
  let context : TypeContext := { plainContext base className with modelType }
  obtain ⟨unit, pos, hgenerate, -, hsource⟩ := generate_literalTemplate base pragmas hcontent className modelType
  obtain ⟨tree, htree, hmirror⟩ := @Unit.read_texts _ context .dynamic pragmas source.key (Markup.textRuns s) pos
    (dotted_builtin hbase className) _ hname
  rw [← hsource] at htree
  have hfound : (BaseType.find? BaseType.builtins base.name).isSome = true := by
    rw [find?_builtin base hbase]
    rfl
  have hwrites : Unit.Writes (({} : Compiler).options context).toLoweringOptions
      (ReferenceResolver.default [] Library.defaults) tree (Markup.textRuns s) :=
    hmirror.writes hfound (find?_usedNamespaces hbase className)
  obtain ⟨t, hcompile, hbody, hlayout⟩ :=
    @Unit.Writes.compile tree (Markup.textRuns s) {} unit context [] w hwrites rfl hw htree
  refine ⟨{ t with digest := some (Engine.contentDigest source.content) }, ?_, hbody, hlayout, rfl⟩
  have hgenerated : (plainEngine base pragmas sources).generator.generate source []
      ((plainEngine base pragmas sources).typeContext source.key modelType) = .ok unit := hgenerate
  rw [Engine.compileSource, bind_run, hgenerated]
  show ((({} : Compiler).compile unit context [] >>= _ : Compilation _) w).1 = _
  rw [bind_run, hcompile]
  rfl

/-- Without a model type, the template of a text is compiled to a program that writes the text. -/
theorem compileSource_literalTemplate (hbase : base ∈ BaseType.builtins) (pragmas : Bool) (sources : SourceProvider)
    {source : TemplateSource} (hcontent : source.content = Markup.literalTemplate s) {w : Workshop}
    (hw : w.artifacts.folder = none) :
    ∃ t, ((plainEngine base pragmas sources).compileSource source [] .dynamic w).1 = .ok t ∧
      t.module.body = (Markup.textRuns s).map .write ∧ t.layout = none ∧
      t.digest = some (Engine.contentDigest source.content) :=
  compileSource_named hbase pragmas sources hcontent (Unit.readsAs_of_dotted (by decide)) hw

theorem readImports_plain {key : String} (hsources : sources.imports key "_imports" = .ok []) :
    (plainEngine base pragmas sources).readImports key = .ok [] := by
  have himports : (plainEngine base pragmas sources).sources.imports key
      (plainEngine base pragmas sources).settings.source.importsFileName = .ok [] := hsources
  rw [Engine.readImports, himports]
  rfl

/-- The template of a text is compiled before it runs, as nothing is stored yet. -/
theorem getOrCompile_plain {key content : String} {modelType : ModelType}
    (hsources : sources.imports key "_imports" = .ok []) {outcome : Except TemplateError CompiledTemplate}
    (h : ((plainEngine base pragmas sources).compileSource ⟨key, content, none⟩ [] modelType {}).1 = outcome) :
    ∃ st, Engine.getOrCompile (.of key modelType) (do
      let imports ← ExceptT.mk (pure ((plainEngine base pragmas sources).readImports key))
      (plainEngine base pragmas sources).compileSource ⟨key, content, none⟩ imports modelType) {} =
        (outcome.mapError .error, st) := by
  refine Engine.getOrCompile_of_lead rfl ?_
  rw [bind_run, readImports_plain hsources]
  exact h

/-- What is compiled to a program that writes a text outputs it. -/
theorem Engine.runText_compiled {key content : String} {modelType : ModelType} {t : CompiledTemplate}
    (hsources : sources.imports key "_imports" = .ok [])
    (hcompile : ((plainEngine base pragmas sources).compileSource ⟨key, content, none⟩ [] modelType {}).1 = .ok t)
    (hbody : t.module.body = (Markup.textRuns s).map .write) (hlayout : t.layout = none)
    (hdigest : t.digest = some (contentDigest content)) (model : Json) :
    ((plainEngine base pragmas sources).runText key content modelType model {}).1 = .ok s := by
  have hchain : (plainEngine base pragmas sources).pageChain key {} = (.ok ⟨[key], 16⟩, {}) := rfl
  obtain ⟨st, hget⟩ := getOrCompile_plain hsources hcompile
  rw [Engine.runText, bind_run, hchain]
  dsimp only
  rw [bind_run, hget]
  show ((if t.digest ≠ some (contentDigest content) then _ else _ : EngineCall String) st).1 = _
  rw [if_neg (not_not_intro hdigest), ← Markup.join_textRuns s]
  exact renderPage_writes hbody hlayout modelType model _ st

/-- What is not compiled answers why. -/
theorem Engine.runText_failed {key content : String} {modelType : ModelType} {err : TemplateError}
    (hsources : sources.imports key "_imports" = .ok [])
    (hcompile : ((plainEngine base pragmas sources).compileSource ⟨key, content, none⟩ [] modelType {}).1 = .error err)
    (model : Json) :
    ((plainEngine base pragmas sources).runText key content modelType model {}).1 = .error (.error err) := by
  have hchain : (plainEngine base pragmas sources).pageChain key {} = (.ok ⟨[key], 16⟩, {}) := rfl
  obtain ⟨st, hget⟩ := getOrCompile_plain hsources hcompile
  rw [Engine.runText, bind_run, hchain]
  dsimp only
  rw [bind_run, hget]
  rfl

/-- For every text, running its template outputs the text: whatever the key and the model are, with either of the
built-in base types, with and without pragmas. -/
theorem Engine.runText_literalTemplate (s key : String) (hbase : base ∈ BaseType.builtins) (pragmas : Bool)
    (hsources : sources.imports key "_imports" = .ok []) (model : Json) :
    ∃ e st, (plainParts base pragmas sources).build = .ok (e, st) ∧
      (e.runText key (Markup.literalTemplate s) .dynamic model st).1 = .ok s := by
  refine ⟨_, _, build_plainParts hbase pragmas sources, ?_⟩
  obtain ⟨t, hcompile, hbody, hlayout, hdigest⟩ :=
    @compileSource_literalTemplate base s hbase pragmas sources ⟨key, Markup.literalTemplate s, none⟩ rfl {} rfl
  exact runText_compiled hsources hcompile hbody hlayout hdigest model

/-- A text that reads like code comes out under a key that reads like a pragma. -/
theorem Engine.runText_literalTemplate_code :
    BaseType.html ∈ BaseType.builtins ∧ ({} : MemorySource).provider.imports "a\n#line 7" "_imports" = .ok [] ∧
      ∃ e st, (plainParts .html true ({} : MemorySource).provider).build = .ok (e, st) ∧
        (e.runText "a\n#line 7" (Markup.literalTemplate "me@home \"\\\x7d // \n#line 3\n@@") .dynamic .null st).1 =
          .ok "me@home \"\\\x7d // \n#line 3\n@@" :=
  ⟨List.mem_cons_self, rfl, runText_literalTemplate _ _ List.mem_cons_self true rfl .null⟩

end

end Stencil
