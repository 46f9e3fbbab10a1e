import Stencil.Proofs.Engine.LiteralText
import Stencil.Proofs.Engine.Storing

/-! What a run renders after its template was replaced and invalidated.

A template is found under every spelling of its key, but its compilations are stored under the spellings that were
called for, and invalidation removes those of one spelling. So the next run of a spelling renders the new text unless
an older compilation is stored under that very spelling, which is then rendered. -/

namespace Stencil

/-! ### Reading from memory -/

namespace MemorySource

/-- The import files that apply to a template in memory are there, so each of them can be read. -/
theorem provider_imports (s : MemorySource) (key name : String) :
    ∃ items, s.provider.imports key name = .ok items ∧ ∀ item ∈ items, ∃ source, item.read = .ok source := by
  rcases hkey : TemplateKey.normalize key with fault | n
  · exact ⟨[], SourceProvider.ofLookup_imports_invalid hkey name, fun _ h => absurd h List.not_mem_nil⟩
  · refine ⟨_, SourceProvider.ofLookup_imports hkey fun _ _ => rfl, fun item hitem => ?_⟩
    obtain ⟨hmem, hfound⟩ := List.mem_filter.mp hitem
    obtain ⟨key, -, rfl⟩ := List.mem_map.mp hmem
    rcases hfind : s.find? key with _ | content
    · rw [SourceItem.found, lookup, hfind] at hfound
      cases hfound
    · refine ⟨⟨key, content, none⟩, ?_⟩
      rw [lookup_of_find? hfind]
      rfl

end MemorySource

theorem RenderChain.enter_root {depth : Nat} (h : depth ≠ 0) (key : String) :
    ({ maxDepth := depth } : RenderChain).enter key = .ok ⟨[key], depth⟩ := by
  have hroom : ¬({ maxDepth := depth } : RenderChain).maxDepth ≤ ({ maxDepth := depth } : RenderChain).depth :=
    fun hle => h (Nat.le_zero.mp hle)
  rw [enter, if_neg (fun hc => by cases hc), enterPartial, if_neg hroom]
  rfl

namespace Engine

variable {e : Engine} {source : MemorySource}

theorem readSource_memory (he : e.sources = source.provider) {key n content : String}
    (hkey : TemplateKey.normalize key = .ok n) (hfind : source.find? n = some content) :
    e.readSource key = .ok ⟨n, content, none⟩ := by
  rw [readSource, he, source.provider_item hkey, MemorySource.lookup_of_find? hfind]
  rfl

theorem readImports_memory (he : e.sources = source.provider) (key : String) :
    ∃ imports, e.readImports key = .ok imports := by
  obtain ⟨items, hitems, hread⟩ := source.provider_imports key e.settings.source.importsFileName
  rw [readImports, he, hitems]
  dsimp only
  clear hitems
  induction items with
  | nil => exact ⟨[], rfl⟩
  | cons item items ih =>
    obtain ⟨text, htext⟩ := hread item List.mem_cons_self
    obtain ⟨texts, htexts⟩ := ih fun item h => hread item (List.mem_cons_of_mem _ h)
    refine ⟨text :: texts, ?_⟩
    rw [List.mapM_cons, htexts, htext]
    rfl

/-- A stored compilation is one of a given text, with the import files that apply to its key. -/
def Compiles (e : Engine) (source : TemplateSource) (entry : CacheEntry CompiledTemplate) : Prop :=
  ∃ imports modelType w, e.readImports entry.key.template = .ok imports ∧
    entry.key = .of entry.key.template modelType ∧ (e.compileSource source imports modelType w).1 = .ok entry.value

theorem compilation_run {key : String} {text : TemplateSource} {imports : List TemplateSource}
    (hsource : e.readSource key = .ok text) (himports : e.readImports key = .ok imports) (modelType : ModelType)
    (w : Workshop) : e.compilation key modelType w = e.compileSource text imports modelType w := by
  rw [compilation, hsource, himports]
  rfl

/-- A page is rendered from what is loaded for it. -/
theorem run_eq (hdepth : e.settings.runtime.maxLayoutDepth ≠ 0) (key : String) (modelType : ModelType) (model : Json)
    (s : EngineState) : e.run key modelType model s =
      match e.load key modelType s with
      | (.ok t, s) => e.renderPage t modelType model ⟨[key], e.settings.runtime.maxLayoutDepth⟩ s
      | (.error h, s) => (.error h, s) := by
  have hchain : e.pageChain key s = (.ok ⟨[key], e.settings.runtime.maxLayoutDepth⟩, s) := by
    rw [pageChain_run, RenderChain.enter_root hdepth]
    rfl
  rw [run, bind_run, hchain]
  show (e.load key modelType >>= _ : EngineCall String) s = _
  rw [bind_run]
  rcases e.load key modelType s with ⟨_ | _, _⟩ <;> rfl

/-- A page that is not stored is compiled, settled and then rendered. -/
theorem run_missing (hdepth : e.settings.runtime.maxLayoutDepth ≠ 0) {key : String} {modelType : ModelType} {s : EngineState}
    (h : s.cache.entry? (.of key modelType) = none) (hidle : s.cache.inFlight = []) (model : Json) :
    e.run key modelType model s =
      match e.compilation key modelType s.workshop with
      | (.ok t, w) => e.renderPage t modelType model ⟨[key], e.settings.runtime.maxLayoutDepth⟩
          ⟨s.cache.settle (.of key modelType) (.ok t), w⟩
      | (.error err, w) => (.error (.error err), ⟨s.cache.settle (.of key modelType) (.error err), w⟩) := by
  rw [run_eq hdepth, load_eq, getOrCompile_missing h hidle]
  rcases e.compilation key modelType s.workshop with ⟨_ | _, _⟩ <;> rfl

theorem run_compiled (hdepth : e.settings.runtime.maxLayoutDepth ≠ 0) {key : String} {modelType : ModelType} {s : EngineState}
    (h : s.cache.entry? (.of key modelType) = none) (hidle : s.cache.inFlight = []) {t : CompiledTemplate} {w : Workshop}
    (ht : e.compilation key modelType s.workshop = (.ok t, w)) (model : Json) :
    e.run key modelType model s = e.renderPage t modelType model ⟨[key], e.settings.runtime.maxLayoutDepth⟩
      ⟨s.cache.settle (.of key modelType) (.ok t), w⟩ := by
  rw [run_missing hdepth h hidle, ht]

end Engine

/-! ### Engines as they are built -/

namespace EngineParts

variable {p : EngineParts} {e : Engine} {st : EngineState}

/-- An engine has the settings and the provider that it is built from, and has stored nothing. -/
theorem build_eq (h : p.build = .ok (e, st)) : e.settings = p.settings ∧ e.sources = p.sources ∧
    p.settings.fault? = none ∧ st.cache = {} ∧ p.artifactStore = .ok st.workshop.artifacts := by
  unfold build at h
  split at h
  · cases h
  · rename_i hfault
    dsimp only at h
    split at h
    · cases hstore : p.artifactStore with
      | error _ =>
        rw [hstore] at h
        cases h
      | ok artifacts =>
        rw [hstore] at h
        cases h
        exact ⟨rfl, rfl, Option.eq_none_iff_forall_ne_some.mpr hfault, rfl, rfl⟩
    · cases h

theorem depth_ne_zero (h : p.settings.fault? = none) : p.settings.runtime.maxLayoutDepth ≠ 0 := by
  intro hzero
  rw [Settings.fault?, if_pos hzero] at h
  cases h

end EngineParts

namespace LiveEngine

theorem base_after (l : LiveEngine) (events : List EngineEvent) : (l.after events).base = l.base := by
  induction events generalizing l with
  | nil => rfl
  | cons event events ih =>
    refine (ih (l.step event)).trans ?_
    cases event <;> rfl

/-- After a template was replaced and one spelling of its key was invalidated, the next run of a spelling renders the
compilation that is stored under that spelling, if it is another one and such a compilation is left, and else the
new text. Whatever is stored for the template then is such a left one or a compilation of the new text. -/
theorem run_after_invalidate {p : EngineParts} {e : Engine} {st : EngineState} (hbuild : p.build = .ok (e, st))
    (source : MemorySource) (events : List EngineEvent) {k₀ k k' n : String} (hk₀ : TemplateKey.normalize k₀ = .ok n) (hk : TemplateKey.normalize k = .ok n)
    (hk' : TemplateKey.normalize k' = .ok n) (content : String) (modelType : ModelType) (model : Json) :
    let before := (LiveEngine.mk e source st).after events
    let l := before.after [.insert k₀ content, .request (.invalidate k)]
    let chain : RenderChain := ⟨[k'], p.settings.runtime.maxLayoutDepth⟩
    let text : TemplateSource := ⟨n, content, none⟩
    (∀ left, k' ≠ k → before.state.cache.entry? (.of k' modelType) = some left →
      l.engine.run k' modelType model l.state = l.engine.renderPage left.value modelType model chain l.state) ∧
    (k' = k ∨ before.state.cache.entry? (.of k' modelType) = none →
      ∃ imports, l.engine.readImports k' = .ok imports ∧ l.engine.run k' modelType model l.state =
        match l.engine.compileSource text imports modelType l.state.workshop with
        | (.ok t, w) => l.engine.renderPage t modelType model chain ⟨l.state.cache.settle (.of k' modelType) (.ok t), w⟩
        | (.error err, w) => (.error (.error err), ⟨l.state.cache.settle (.of k' modelType) (.error err), w⟩)) ∧
    ∀ entry ∈ (l.engine.run k' modelType model l.state).2.cache.entries,
      TemplateKey.normalize entry.key.template = .ok n →
        entry ∈ before.state.cache.entries ∧ entry.key.template ≠ k ∨ l.engine.Compiles text entry := by
  intro before l chain text
  obtain ⟨hsettings, -, hfault, hcache, -⟩ := EngineParts.build_eq hbuild
  have hidle : before.state.cache.inFlight = [] := after_idle (by rw [hcache]) events
  have hbase : l.engine.settings = p.settings := by
    show l.base.settings = _
    rw [base_after, base_after]
    exact hsettings
  have hdepth : l.engine.settings.runtime.maxLayoutDepth ≠ 0 := hbase ▸ EngineParts.depth_ne_zero hfault
  have hchain : chain = ⟨[k'], l.engine.settings.runtime.maxLayoutDepth⟩ := by rw [hbase]
  -- The provider has the new text under every spelling.
  obtain ⟨new, hinsert⟩ := before.source.insert_ok content hk₀
  have hsources : l.engine.sources = new.provider := by
    show ((before.source.insert k₀ content).toOption.getD before.source).provider = _
    rw [hinsert]
    rfl
  have hread : ∀ {key}, TemplateKey.normalize key = .ok n → l.engine.readSource key = .ok text :=
    fun hkey => Engine.readSource_memory hsources hkey (MemorySource.find?_insert hinsert hk₀)
  have hstores : l.state.Stores fun entry => entry ∈ before.state.cache.entries ∧ entry.key.template ≠ k :=
    EngineState.Stores.invalidate (P := (· ∈ before.state.cache.entries)) ⟨hidle, fun _ h => h⟩ k
  refine ⟨fun left hne hleft => ?_, fun hgone => ?_, ?_⟩
  · -- The invalidation goes by the spelling, so the entry of another spelling is still found.
    have hstored : l.state.cache.entry? (.of k' modelType) = some left :=
      (Cache.entry?_invalidate_of_ne hne).trans hleft
    rw [Engine.run_eq hdepth, Engine.load_eq, Engine.getOrCompile_stored hstored, ← hchain]
  · -- Nothing is stored under the spelling, so the text is read and compiled.
    have hmissing : l.state.cache.entry? (.of k' modelType) = none := by
      refine Cache.entry?_eq_none.mpr fun entry hentry hkey => ?_
      obtain ⟨hmem, hne⟩ := hstores.entries entry hentry
      rcases hgone with rfl | hgone
      · exact hne (congrArg CacheKey.template hkey)
      · exact Cache.entry?_eq_none.mp hgone entry hmem hkey
    obtain ⟨imports, himports⟩ := Engine.readImports_memory hsources k'
    refine ⟨imports, himports, ?_⟩
    rw [Engine.run_missing hdepth hmissing hstores.idle, Engine.compilation_run (hread hk') himports, ← hchain]
  · -- An entry of the template was left by the invalidation, or is the compilation of the new text.
    have hentries := Engine.run_stores (e := l.engine)
      (P := fun entry => TemplateKey.normalize entry.key.template = .ok n →
        entry ∈ before.state.cache.entries ∧ entry.key.template ≠ k ∨ l.engine.Compiles text entry)
      (hstores.mono fun entry h _ => .inl h) (fun key modelType w slot t ht hkey => ?_) k' modelType model
    · exact hentries.entries
    · obtain ⟨imports, himports⟩ := Engine.readImports_memory hsources key
      have htext : l.engine.readSource key = .ok text := hread hkey
      rw [Engine.compilation_run htext himports] at ht
      exact .inr ⟨imports, modelType, w, himports, rfl, ht⟩

theorem state_after_run (l : LiveEngine) (key : String) (modelType : ModelType) (model : Json) :
    (l.after [.request (.run key modelType model)]).state = (l.engine.run key modelType model l.state).2 := by
  show (EngineRequest.perform l.engine (.run key modelType model) l.state).2 = _
  rw [EngineRequest.perform_run]

theorem workshop_after_invalidate (l : LiveEngine) (key content k : String) :
    (l.after [.insert key content, .request (.invalidate k)]).state.workshop = l.state.workshop := rfl

/-- A page without at signs is compiled to a program that writes its text. -/
theorem compileSource_literalPage (sources : SourceProvider) {w : Workshop} (hw : w.artifacts.folder = none) (text : String)
    (htext : text = Markup.literalTemplate text) :
    ∃ t w', (plainEngine .html false sources).compileSource ⟨"page", text, none⟩ [] .dynamic w = (.ok t, w') ∧
      w'.artifacts.folder = none ∧ ∀ (e : Engine) chain s, e.renderPage t .dynamic .null chain s = (.ok text, s) := by
  obtain ⟨t, hcompile, hbody, hlayout, -⟩ := @compileSource_literalTemplate .html text List.mem_cons_self false sources
    ⟨"page", text, none⟩ htext w hw
  obtain ⟨_, -, hsettled⟩ := (plainEngine .html false sources).compileSource_settled ⟨"page", text, none⟩ [] .dynamic
  have hfolder := congrArg ArtifactStore.folder (hsettled w hw).2
  refine ⟨t, _, Prod.ext hcompile rfl, hfolder.trans hw, fun e chain s => ?_⟩
  rw [Engine.renderPage_writes_run hbody hlayout, Markup.join_textRuns]

/-- The page that was stored under `/page` is rendered once more under this spelling, and under `page` the new one. -/
theorem run_after_invalidate_page :
    TemplateKey.normalize "page" = .ok "page" ∧ TemplateKey.normalize "/page" = .ok "page" ∧
      ∃ e st, (plainParts .html false ({} : MemorySource).provider).build = .ok (e, st) ∧
        let before := (LiveEngine.mk e ⟨[("page", "v1")]⟩ st).after [.request (.run "/page" .dynamic .null)]
        let l := before.after [.insert "page" "v2", .request (.invalidate "page")]
        (l.engine.run "/page" .dynamic .null l.state).1 = .ok "v1" ∧
          (l.engine.run "page" .dynamic .null l.state).1 = .ok "v2" := by
  have hpage : TemplateKey.normalize "page" = .ok "page" := by decide
  have hslash : TemplateKey.normalize "/page" = .ok "page" := by decide
  have hbuild := @build_plainParts .html List.mem_cons_self false ({} : MemorySource).provider
  refine ⟨hpage, hslash, _, _, hbuild, ?_⟩
  intro before l
  have h := fun k' (hk' : TemplateKey.normalize k' = .ok "page") => run_after_invalidate hbuild ⟨[("page", "v1")]⟩
    [.request (.run "/page" .dynamic .null)] hpage hpage hk' "v2" .dynamic .null
  obtain ⟨hleft, -, -⟩ := h "/page" hslash
  obtain ⟨-, hnew, -⟩ := h "page" hpage
  -- The first run stores the compilation of the old text.
  let start : LiveEngine := ⟨plainEngine .html false ({} : MemorySource).provider, ⟨[("page", "v1")]⟩, {}⟩
  obtain ⟨old, w, hold, hw, hrenderOld⟩ := compileSource_literalPage start.source.provider (w := {}) rfl "v1"
    (by decide)
  have hread : start.engine.readSource "/page" = .ok ⟨"page", "v1", none⟩ := rfl
  have himports : start.engine.readImports "/page" = .ok [] := rfl
  have hcompilation : start.engine.compilation "/page" .dynamic {} = (.ok old, w) :=
    (Engine.compilation_run hread himports .dynamic {}).trans hold
  have hrun : start.engine.run "/page" .dynamic .null {} =
      (.ok "v1", ⟨Cache.settle {} (.of "/page" .dynamic) (.ok old), w⟩) :=
    (Engine.run_compiled (fun h => by cases h) rfl rfl hcompilation .null).trans (hrenderOld _ _ _)
  have hstate : before.state = ⟨Cache.settle {} (.of "/page" .dynamic) (.ok old), w⟩ := by
    rw [state_after_run, hrun]
  have hfolder : l.state.workshop.artifacts.folder = none := by
    rw [workshop_after_invalidate, hstate, hw]
  refine ⟨?_, ?_⟩
  · have hstored : before.state.cache.entry? (.of "/page" .dynamic) = some ⟨.of "/page" .dynamic, 0, old⟩ := by
      rw [hstate]
      rfl
    rw [hleft _ (by decide) hstored, hrenderOld]
  · obtain ⟨new, _, hcompiled, -, hrenderNew⟩ := compileSource_literalPage l.source.provider hfolder "v2" (by decide)
    obtain ⟨imports, himports, hrunNew⟩ := hnew (.inl rfl)
    obtain rfl : [] = imports := Except.ok.inj himports
    have hbase : l.base = start.base := (base_after before _).trans (base_after start _)
    have hengine : l.engine = plainEngine .html false l.source.provider := by
      show { l.base with sources := l.source.provider } = _
      rw [hbase]
      rfl
    rw [hrunNew, hengine, hcompiled]
    exact congrArg Prod.fst (hrenderNew _ _ _)

end LiveEngine

end Stencil
