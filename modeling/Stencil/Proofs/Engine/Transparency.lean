import Stencil.Proofs.Engine.Emitting
import Stencil.Proofs.Render.Alike

/-! Stored compilations do not show.

Without files, a template is compiled to the same whatever was compiled before. So as long as the sources stay, and no
two model types share a name, an engine that has stored something answers a call as it would if it had stored nothing:
each stored compilation is the one that would be made, also where it was made for a layout or a partial. -/

namespace Stencil

/-- Model types that their names tell apart. -/
def ModelType.Distinct (T : ModelType → Prop) : Prop := ∀ a b, T a → T b → a.name = b.name → a = b

/-- The state of an engine without files in which every compilation is the one that would be made for its key and some
model type of those in use. -/
structure EngineState.Faithful (e : Engine) (T : ModelType → Prop) (s : EngineState) : Prop where
  memory : s.workshop.artifacts.folder = none
  stores : s.Stores fun entry => ∃ modelType, T modelType ∧ entry.key = .of entry.key.template modelType ∧
    ∀ w : Workshop, w.artifacts.folder = none → (e.compilation entry.key.template modelType w).1 = .ok entry.value

namespace Engine

variable {e : Engine} {T : ModelType → Prop} {s : EngineState} {key : String} {modelType : ModelType}

/-! ### Loading -/

/-- Loading gives what would be compiled, and keeps the state faithful. -/
theorem load_faithful (hT : ModelType.Distinct T) (h : s.Faithful e T) (hmodelType : T modelType) (key : String) :
    (e.load key modelType s).2.Faithful e T ∧ ∀ w : Workshop, w.artifacts.folder = none →
      (e.load key modelType s).1 = (e.compilation key modelType w).1.mapError .error := by
  obtain ⟨outcome, -, hsettled⟩ := e.compilation_settled key modelType
  rw [load_eq]
  rcases hentry : s.cache.entry? (.of key modelType) with _ | entry
  · rw [getOrCompile_missing hentry h.stores.idle]
    obtain ⟨hout, hartifacts⟩ := hsettled s.workshop h.memory
    refine ⟨⟨by rw [hartifacts, h.memory], h.stores.settle (fun slot t ht => ?_) _⟩, fun w hw => ?_⟩
    · exact ⟨modelType, hmodelType, rfl, fun w hw => (hsettled w hw).1.trans (hout.symm.trans ht)⟩
    · rw [hout, (hsettled w hw).1]
  · rw [getOrCompile_stored hentry]
    refine ⟨h, fun w hw => ?_⟩
    obtain ⟨hmem, hkey⟩ := Cache.entry?_eq_some hentry
    obtain ⟨modelType', hmodelType', hkey', hvalue⟩ := h.stores.entries entry hmem
    have htemplate : entry.key.template = key := congrArg CacheKey.template hkey
    obtain rfl : modelType' = modelType :=
      hT _ _ hmodelType' hmodelType (congrArg CacheKey.modelType (hkey'.symm.trans hkey))
    rw [← htemplate, hvalue w hw]
    rfl

/-- Both states are faithful. -/
def BothFaithful (e : Engine) (T : ModelType → Prop) (s s' : EngineState) : Prop := s.Faithful e T ∧ s'.Faithful e T

theorem load_alike (hT : ModelType.Distinct T) (key : String) (hmodelType : T modelType) :
    Alike (BothFaithful e T) (e.load key modelType) where
  same s s' hs := by
    obtain ⟨-, hload⟩ := load_faithful hT hs.1 hmodelType key
    obtain ⟨-, hload'⟩ := load_faithful hT hs.2 hmodelType key
    rw [hload _ hs.1.memory, hload' _ hs.1.memory]
  left s s' hs := ⟨(load_faithful hT hs.1 hmodelType key).1, (load_faithful hT hs.2 hmodelType key).1⟩

theorem modelType_of_load (hT : ModelType.Distinct T) (h : s.Faithful e T) (hmodelType : T modelType) {t : CompiledTemplate}
    (ht : (e.load key modelType s).1 = .ok t) : t.modelType = modelType := by
  obtain ⟨outcome, hgives, hsettled⟩ := e.compilation_settled key modelType
  rw [(load_faithful hT h hmodelType _).2 _ h.memory, (hsettled _ h.memory).1] at ht
  cases outcome <;> cases ht
  exact hgives _ rfl

/-! ### Rendering -/

section
variable {H : EngineState → EngineState → Prop} {α : Type}

theorem entered_alike (chain : Except TemplateError RenderChain) : Alike H (entered chain) :=
  ⟨fun _ _ _ => rfl, fun _ _ h => h⟩

theorem inside_alike (next : Option Renderer) : Alike H (inside next) := by
  cases next with
  | none => exact .throw _
  | some render => exact .pure render

theorem within_alike {x : EngineCall α} (h : Alike H x) : Alike (Scene.Like T H) (within x) where
  same _ _ hs := h.same _ _ hs.host
  left _ _ hs := ⟨hs.context, hs.types, h.left _ _ hs.host⟩

theorem renderFresh_alike {render : Renderer} {t : CompiledTemplate} {modelType : ModelType} {model : Json} {chain : RenderChain}
    {role : Role} (h : Alike (Scene.Like T H) (render t modelType model chain role)) :
    Alike H (renderFresh render t modelType model chain role) := by
  have hframe := inNewFrame_alike h
  have hfresh : ∀ s s', H s s' → Scene.Like T H (⟨{}, s⟩ : Scene EngineState) ⟨{}, s'⟩ := by
    refine fun s s' hs => ⟨rfl, fun a ha => ?_, hs⟩
    obtain ⟨_, _, hmem, -⟩ := ha
    cases hmem
  exact ⟨fun s s' hs => hframe.same _ _ (hfresh s s' hs), fun s s' hs => (hframe.left _ _ (hfresh s s' hs)).host⟩

end

/-- A way to render templates does the same whatever is stored. -/
def RendersAlike (e : Engine) (T : ModelType → Prop) (render : Renderer) : Prop :=
  ∀ t modelType model chain role, T t.modelType → T modelType →
    Alike (Scene.Like T (BothFaithful e T)) (render t modelType model chain role)

theorem host_alike (hT : ModelType.Distinct T) {next : Option Renderer}
    (hnext : ∀ render, next = some render → RendersAlike e T render) (chain : RenderChain) :
    (e.host next chain).Alike T (BothFaithful e T) := by
  intro key modelType v hmodelType
  show Alike _ (entered (chain.enterPartial key) >>= _ : EngineCall String)
  refine (entered_alike _).bind fun chain => ?_
  refine (load_alike hT key hmodelType).bind_given fun s _ t hs ht => ?_
  refine (inside_alike next).bind_given fun s' _ render _ hrender => ?_
  refine renderFresh_alike (hnext render ?_ t modelType v chain .part ?_ hmodelType)
  · cases next <;> cases hrender
    rfl
  · rw [modelType_of_load hT hs.1 hmodelType ht]
    exact hmodelType

theorem renderWith_alike (hT : ModelType.Distinct T) (hdynamic : T .dynamic) {next : Option Renderer}
    (hnext : ∀ render, next = some render → RendersAlike e T render) : RendersAlike e T (e.renderWith next) := by
  intro t modelType model chain role ht hmodelType
  refine (t.execute_alike hdynamic (host_alike hT hnext chain) ht model).bind fun body => ?_
  cases layoutToFollow t role with
  | none => exact .pure body
  | some key =>
    refine (within_alike (entered_alike _)).bind fun chain => ?_
    refine (within_alike (load_alike hT key hmodelType)).bind_given fun s _ layout hs hlayout => ?_
    refine (within_alike (inside_alike next)).bind_given fun s' _ render _ hrender => ?_
    refine inNewFrame_alike (withBody_alike (hnext render ?_ layout modelType model chain .layout ?_ hmodelType))
    · cases next <;> cases hrender
      rfl
    · rw [modelType_of_load hT hs.host.1 hmodelType hlayout]
      exact hmodelType

/-- However deep renders nest, they do the same whatever is stored. -/
theorem renderer_alike (hT : ModelType.Distinct T) (hdynamic : T .dynamic) (room : Nat) :
    RendersAlike e T (e.renderer room) := by
  induction room with
  | zero => exact renderWith_alike hT hdynamic fun _ h => by cases h
  | succ room ih =>
    refine renderWith_alike hT hdynamic fun render h => ?_
    cases h
    exact ih

/-! ### Calls -/

theorem run_alike (hT : ModelType.Distinct T) (hdynamic : T .dynamic) (hmodelType : T modelType) (key : String) (model : Json) :
    Alike (BothFaithful e T) (e.run key modelType model) := by
  refine (entered_alike _).bind fun chain => ?_
  refine (load_alike hT key hmodelType).bind_given fun s _ t hs ht => ?_
  refine renderFresh_alike (renderer_alike hT hdynamic chain.room t modelType model chain .page ?_ hmodelType)
  rw [modelType_of_load hT hs.1 hmodelType ht]
  exact hmodelType

theorem compile_alike (hT : ModelType.Distinct T) (hmodelType : T modelType) (key : String) :
    Alike (BothFaithful e T) (e.compile key modelType) :=
  (load_alike hT key hmodelType).bind fun _ => .pure _

/-- A request is answered the same in two faithful states, but for the number of compilations that it removes, and leaves a
faithful state. -/
theorem perform_faithful (hT : ModelType.Distinct T) (hdynamic : T .dynamic) {r : EngineRequest}
    (hr : ∀ modelType, r.modelType? = some modelType → T modelType) {s' : EngineState} (h : s.Faithful e T)
    (h' : s'.Faithful e T) :
    (r.perform e s).1.map EngineReply.countless = (r.perform e s').1.map EngineReply.countless ∧
      (r.perform e s).2.Faithful e T := by
  cases r with
  | run key modelType model =>
    have hperform : Alike (BothFaithful e T) (EngineRequest.perform e (.run key modelType model)) :=
      (run_alike hT hdynamic (hr modelType rfl) key model).bind fun _ => .pure _
    exact ⟨congrArg _ (hperform.same s s' ⟨h, h'⟩), (hperform.left s s' ⟨h, h'⟩).1⟩
  | compile key modelType =>
    have hperform : Alike (BothFaithful e T) (EngineRequest.perform e (.compile key modelType)) :=
      (compile_alike hT (hr modelType rfl) key).bind fun _ => .pure _
    exact ⟨congrArg _ (hperform.same s s' ⟨h, h'⟩), (hperform.left s s' ⟨h, h'⟩).1⟩
  | invalidate key => exact ⟨rfl, h.memory, (h.stores.invalidate key).mono fun _ hentry => hentry.1⟩

/-- The requests of a sequence are answered each as in any faithful state. -/
theorem answers_faithful (hT : ModelType.Distinct T) (hdynamic : T .dynamic) {st : EngineState} (hst : st.Faithful e T)
    (rs : List EngineRequest) (hrs : ∀ r ∈ rs, ∀ modelType, r.modelType? = some modelType → T modelType)
    (h : s.Faithful e T) :
    (e.answers rs s).1.map (·.map EngineReply.countless) = rs.map (fun r => (r.perform e st).1.map EngineReply.countless) ∧
      (e.answers rs s).2.Faithful e T := by
  induction rs generalizing s with
  | nil => exact ⟨rfl, h⟩
  | cons r rs ih =>
    obtain ⟨hanswer, hleft⟩ := perform_faithful hT hdynamic (hrs r List.mem_cons_self) h hst
    obtain ⟨hanswers, hfinal⟩ := ih (fun r hr => hrs r (List.mem_cons_of_mem _ hr)) hleft
    have hall := congr (congrArg List.cons hanswer) hanswers
    exact ⟨hall, hfinal⟩

end Engine

/-! ### Sequences of calls -/

theorem EngineParts.memory_of_build {p : EngineParts} {e : Engine} {st : EngineState} (h : p.build = .ok (e, st))
    (hmemory : p.settings.compiler.artifacts.mode = .memory) : st.workshop.artifacts.folder = none := by
  obtain ⟨-, -, -, -, hstore⟩ := build_eq h
  rw [artifactStore, folder, hmemory] at hstore
  exact congrArg ArtifactStore.folder (Except.ok.inj hstore).symm

/-- A page that gives its model to a partial. -/
def dynamicPages : MemorySource := ⟨[("page", "@Include(\"part\", Model)"), ("part", "@Model.B")]⟩

/-- An engine for the pages. -/
def dynamicEngine : Engine := plainEngine .raw false dynamicPages.provider

/-- An engine that keeps no files answers each request of a sequence as if nothing had been stored before, but for the
number of compilations that are removed, and every compilation that it has stored is the one that it would make with
nothing stored, if the model types of the requests and the dynamic one are told apart by their names. -/
theorem Engine.answers_transparent {p : EngineParts} {e : Engine} {st : EngineState} (hbuild : p.build = .ok (e, st))
    (hmemory : p.settings.compiler.artifacts.mode = .memory) (rs : List EngineRequest)
    (htypes : ModelType.Distinct (· ∈ .dynamic :: rs.filterMap (·.modelType?))) :
    (e.answers rs st).1.map (·.map EngineReply.countless) = rs.map (fun r => (r.perform e st).1.map EngineReply.countless) ∧
      ∀ entry ∈ (e.answers rs st).2.cache.entries, ∃ modelType ∈ .dynamic :: rs.filterMap (·.modelType?),
        entry.key = .of entry.key.template modelType ∧ (e.load entry.key.template modelType st).1 = .ok entry.value := by
  obtain ⟨-, -, -, hcache, -⟩ := EngineParts.build_eq hbuild
  have hst : st.Faithful e (· ∈ .dynamic :: rs.filterMap (·.modelType?)) := by
    refine ⟨EngineParts.memory_of_build hbuild hmemory, by rw [hcache], fun entry hentry => ?_⟩
    rw [hcache] at hentry
    cases hentry
  obtain ⟨hanswers, hfinal⟩ := answers_faithful htypes List.mem_cons_self hst rs
    (fun r hr modelType h => List.mem_cons_of_mem _ (List.mem_filterMap.mpr ⟨r, hr, h⟩)) hst
  refine ⟨hanswers, fun entry hentry => ?_⟩
  obtain ⟨modelType, hmodelType, hkey, hvalue⟩ := hfinal.stores.entries entry hentry
  refine ⟨modelType, hmodelType, hkey, ?_⟩
  rw [(load_faithful htypes hst hmodelType _).2 _ hst.memory, hvalue _ hst.memory]
  rfl

/-- The page and the partial are answered as if nothing had been stored, for a type with a name of its own. -/
theorem Engine.answers_transparent_pages :
    (plainParts .raw false dynamicPages.provider).build = .ok (dynamicEngine, {}) ∧
      (plainParts .raw false dynamicPages.provider).settings.compiler.artifacts.mode = .memory ∧
      let rs : List EngineRequest := [.run "page" (.closed "M" ["B"]) (.object [("B", .string "b")]), .invalidate "page",
        .run "part" (.closed "M" ["B"]) (.object [("B", .string "b")])]
      ModelType.Distinct (· ∈ .dynamic :: rs.filterMap (·.modelType?)) ∧
        (dynamicEngine.answers rs {}).1.map (·.map EngineReply.countless) =
          rs.map fun r => (r.perform dynamicEngine {}).1.map EngineReply.countless := by
  have hbuild := build_plainParts (List.mem_cons_of_mem _ List.mem_cons_self) false dynamicPages.provider
  have hmemory : (plainParts .raw false dynamicPages.provider).settings.compiler.artifacts.mode = .memory := rfl
  refine ⟨hbuild, hmemory, ?_⟩
  intro rs
  have htypes : ModelType.Distinct (· ∈ .dynamic :: rs.filterMap (·.modelType?)) := by
    intro a b ha hb hab
    have hmem : ∀ c ∈ ModelType.dynamic :: rs.filterMap (·.modelType?), c = .dynamic ∨ c = .closed "M" ["B"] := by
      intro c hc
      simpa [rs, EngineRequest.modelType?] using hc
    rcases hmem a ha with rfl | rfl <;> rcases hmem b hb with rfl | rfl
    · rfl
    · exact absurd hab (by decide)
    · exact absurd hab (by decide)
    · rfl
  exact ⟨htypes, (Engine.answers_transparent hbuild hmemory rs htypes).1⟩

/-! ### The dynamic type -/

/-- The page and then the partial, for a type that is named as the dynamic one and declares another member. -/
def dynamicRequests : List EngineRequest :=
  [.run "page" (.closed "dynamic" ["A"]) (.object [("B", .string "b")]),
    .run "part" (.closed "dynamic" ["A"]) (.object [("B", .string "b")])]

theorem dynamicPages_page : (dynamicEngine.program? ⟨"page", "@Include(\"part\", Model)", none⟩ [] (.closed "dynamic" ["A"])).any
    (·.Emits fun | .call (.builtin .embed) [.literal (.string "part"), .model] => true | _ => false) = true := by
  decide +kernel

theorem dynamicPages_part : (dynamicEngine.program? ⟨"part", "@Model.B", none⟩ [] .dynamic).any
    (·.Emits fun | .member .model "B" => true | _ => false) = true := by
  decide +kernel

theorem dynamicPages_refused :
    (dynamicEngine.compilation "part" (.closed "dynamic" ["A"]) {}).1.toOption.isSome = false := by
  decide +kernel

theorem dynamicEngine_depth : dynamicEngine.settings.runtime.maxLayoutDepth ≠ 0 := by decide

/-- The page stores the partial for the dynamic type. -/
theorem dynamicPages_stored : ∃ entry : CacheEntry CompiledTemplate,
    (dynamicEngine.run "page" (.closed "dynamic" ["A"]) (.object [("B", .string "b")]) {}).2.cache.entry? (.of "part" .dynamic) =
      some entry ∧ entry.value.program.Emits (fun | .member .model "B" => true | _ => false) = true := by
  obtain ⟨page, w, hpage, hw, hembeds⟩ := dynamicEngine.compilation_emits rfl "page" rfl rfl dynamicPages_page
    (w := {}) rfl
  obtain ⟨part, w', hpart, -, hemits⟩ := dynamicEngine.compilation_emits rfl "part" rfl rfl dynamicPages_part hw
  obtain ⟨-, hlayout, expr, pos, hbody, htest⟩ := Program.emits_iff hembeds
  obtain rfl : expr = .call (.builtin .embed) [.literal (.string "part"), .model] := by
    split at htest
    · rfl
    · cases htest
  have hrun := (congrArg Prod.snd (Engine.run_compiled dynamicEngine_depth (s := {}) rfl rfl hpage _)).trans
    (dynamicEngine.renderPage_embeds 14 rfl hlayout hbody (.closed "dynamic" ["A"]) (.object [("B", .string "b")]) _)
  have hchain : RenderChain.enterPartial ⟨["page"], dynamicEngine.settings.runtime.maxLayoutDepth⟩ "part" =
      .ok ⟨["page", "part"], 16⟩ := rfl
  have hstores := dynamicEngine.embed_stores 14 hchain
    (s := ⟨({} : EngineState).cache.settle (.of "page" (.closed "dynamic" ["A"])) (.ok page), w⟩) rfl rfl hpart
    (.object [("B", .string "b")])
  rw [hrun]
  exact ⟨_, hstores.2, hemits⟩

theorem dynamicPages_served : (dynamicEngine.run "part" (.closed "dynamic" ["A"]) (.object [("B", .string "b")])
    (dynamicEngine.run "page" (.closed "dynamic" ["A"]) (.object [("B", .string "b")]) {}).2).1 = .ok "b" := by
  obtain ⟨entry, hentry, hemits⟩ := dynamicPages_stored
  obtain ⟨hraw, hlayout, expr, pos, hbody, htest⟩ := Program.emits_iff hemits
  obtain rfl : expr = .member .model "B" := by
    split at htest
    · rfl
    · cases htest
  have hentry' : (dynamicEngine.run "page" (.closed "dynamic" ["A"]) (.object [("B", .string "b")]) {}).2.cache.entry?
    (.of "part" (.closed "dynamic" ["A"])) = some entry := hentry
  rw [Engine.run_eq dynamicEngine_depth, Engine.load_eq, Engine.getOrCompile_stored hentry']
  exact dynamicEngine.renderPage_member hlayout hraw hbody rfl _ _ _

/-- An engine whose second run gives an output, where it would fail with nothing stored, is not transparent. -/
theorem Engine.answers_ne {e : Engine} {key key' text : String} {modelType modelType' : ModelType} {v v' : Json}
    {s : EngineState} {h : Halt} (hstored : (e.run key' modelType' v' (e.run key modelType v s).2).1 = .ok text)
    (hfresh : (e.run key' modelType' v' s).1 = .error h) :
    (e.answers [.run key modelType v, .run key' modelType' v'] s).1.map (·.map EngineReply.countless) ≠
      ([.run key modelType v, .run key' modelType' v'] : List EngineRequest).map fun r =>
        (r.perform e s).1.map EngineReply.countless := by
  intro heq
  have hsecond : (EngineRequest.perform e (.run key' modelType' v') (EngineRequest.perform e (.run key modelType v) s).2).1.map
      EngineReply.countless = (EngineRequest.perform e (.run key' modelType' v') s).1.map EngineReply.countless :=
    (List.cons.inj (List.cons.inj heq).2).1
  rw [EngineRequest.perform_run, EngineRequest.perform_run, EngineRequest.perform_run, hstored, hfresh] at hsecond
  cases hsecond

/-- So the partial is rendered for the type that does not declare its member, where an engine that has stored nothing
refuses it: the dynamic type counts among those of the requests. -/
theorem Engine.answers_differ_dynamic :
    (plainParts .raw false dynamicPages.provider).build = .ok (dynamicEngine, {}) ∧
      (plainParts .raw false dynamicPages.provider).settings.compiler.artifacts.mode = .memory ∧
      ModelType.Distinct (· ∈ dynamicRequests.filterMap (·.modelType?)) ∧
      (dynamicEngine.answers dynamicRequests {}).1.map (·.map EngineReply.countless) ≠
        dynamicRequests.map fun r => (r.perform dynamicEngine {}).1.map EngineReply.countless := by
  refine ⟨build_plainParts (List.mem_cons_of_mem _ List.mem_cons_self) false _, rfl, ?_, ?_⟩
  · have hmem : ∀ a ∈ dynamicRequests.filterMap (·.modelType?), a = .closed "dynamic" ["A"] := by
      intro a ha
      simpa [dynamicRequests, EngineRequest.modelType?] using ha
    exact fun a b ha hb _ => (hmem a ha).trans (hmem b hb).symm
  · obtain ⟨h, hfresh⟩ := Engine.run_refused dynamicEngine_depth (s := {}) rfl rfl dynamicPages_refused (.object [("B", .string "b")])
    exact Engine.answers_ne dynamicPages_served hfresh

end Stencil
