import Stencil.Proofs.Engine.Storing
import Stencil.Proofs.Render.Ending

/-! Every render ends.

A partial or a layout takes room in its chain, sections nest no deeper than there are frames, and template functions call each
other to a limited depth. So the bound on nested renders is never used up: a render gives an output, or it fails with an
error, whatever programs are rendered. -/

namespace Stencil

variable {α β : Type} {H : EngineState → Prop} {T : CompiledTemplate → Prop} {N : Halt → Prop} {P : α → Prop} {Q : β → Prop}

/-- The output to wrap is on top when it is taken off. -/
theorem withBody_ends {σ : Type} {H : σ → Prop} {b : Body} {x : Execution σ α} (hx : x.Ends H T N) :
    (withBody b x).Ends H T N := by
  intro c hc
  have hinner : ∀ s : Scene σ, s.From H T c → Keeps (Scene.From H T (s.context.pushBody b)) N (fun _ => True) x :=
    fun s hs => hx _ (hs.grows.layered.congr rfl rfl)
  have hrun : ∀ s : Scene σ, s.From H T c → withBody b x s = _ :=
    fun s hs => withBody_eq ((hinner s hs).kept _ (hs.pushBody b)).bodies
  constructor <;> intro s hs <;> rw [hrun s hs]
  · exact hs.popBody ((hinner s hs).kept _ (hs.pushBody b))
  · exact fun _ _ => trivial
  · exact fun e he => (hinner s hs).fails _ (hs.pushBody b) e he

/-! ### Calls -/

/-- A call of an engine keeps a property of its state, gives only certain values, and fails only in certain ways. -/
structure EngineCall.Ends (H : EngineState → Prop) (N : Halt → Prop) (P : α → Prop) (x : EngineCall α) : Prop where
  kept : ∀ s, H s → H (x s).2
  gives : ∀ s, H s → ∀ a, (x s).1 = .ok a → P a
  fails : ∀ s, H s → ∀ h, (x s).1 = .error h → N h

namespace EngineCall.Ends

/-- What a call keeps and how it ends is shown run by run. -/
theorem of_run {x : EngineCall α}
    (h : ∀ s, H s → H (x s).2 ∧ match (x s).1 with
      | .ok a => P a
      | .error e => N e) : x.Ends H N P where
  kept s hs := (h s hs).1
  gives s hs a ha := by
    have hend := (h s hs).2
    rwa [ha] at hend
  fails s hs e he := by
    have hend := (h s hs).2
    rwa [he] at hend

theorem run {x : EngineCall α} (hx : x.Ends H N P) {s : EngineState} (hs : H s) :
    H (x s).2 ∧ match (x s).1 with
      | .ok a => P a
      | .error e => N e := by
  refine ⟨hx.kept s hs, ?_⟩
  cases h : (x s).1 with
  | ok a => exact hx.gives s hs a h
  | error e => exact hx.fails s hs e h

theorem bind {x : EngineCall α} {f : α → EngineCall β} (hx : x.Ends H N P) (hf : ∀ a, P a → (f a).Ends H N Q) :
    (x >>= f : EngineCall β).Ends H N Q := by
  refine .of_run fun s hs => ?_
  have hkept := hx.kept s hs
  rw [bind_run]
  cases h : (x s).1 with
  | error e => exact ⟨hkept, hx.fails s hs e h⟩
  | ok a => exact (hf a (hx.gives s hs a h)).run hkept

theorem entered (hN : ∀ err, N (.error err)) (chain : Except TemplateError RenderChain) :
    (Engine.entered chain).Ends H N (fun c => chain = .ok c) := by
  refine .of_run fun s hs => ?_
  rw [Engine.entered_run]
  cases chain with
  | error err => exact ⟨hs, hN err⟩
  | ok c => exact ⟨hs, rfl⟩

/-- A call within a render does its work in the frame on top. -/
theorem within {x : EngineCall α} (hx : x.Ends H N P) {c : Context Action} : Keeps (Scene.From H T c) N P (Engine.within x) where
  kept s hs := hs.withHost (hx.kept s.host hs.host)
  gives s hs := hx.gives s.host hs.host
  fails s hs := hx.fails s.host hs.host

/-- The renderers further inside are there. -/
theorem inside {render : Engine.Renderer} : (Engine.inside (some render)).Ends H N (fun r => r = render) where
  kept _ hs := hs
  gives _ _ _ hr := by cases hr; rfl
  fails _ _ _ hh := by cases hh

/-- A fresh context has a frame, and no sections. -/
theorem renderFresh {render : Engine.Renderer} {t : CompiledTemplate} {modelType : ModelType} {model : Json} {chain : RenderChain}
    {role : Role} (h : (render t modelType model chain role).Ends H T N) :
    (Engine.renderFresh render t modelType model chain role).Ends H N (fun _ => True) := by
  have hframe := inNewFrame_ends h _ .start
  have hfresh : ∀ s, H s → Scene.From H T {} ⟨{}, s⟩ := fun s hs =>
    ⟨hs, .refl .start, rfl, fun _ ⟨_, _, hmem, _⟩ => by cases hmem⟩
  exact ⟨fun s hs => (hframe.kept _ (hfresh s hs)).host, fun _ _ _ _ => trivial, fun s hs => hframe.fails _ (hfresh s hs)⟩

end EngineCall.Ends

/-! ### Renders -/

namespace Engine

variable {e : Engine}

/-- How a text is compiled as the template with a key when none is stored. -/
def compilationOf (e : Engine) (key content : String) (modelType : ModelType) : Compilation CompiledTemplate := do
  let imports ← ExceptT.mk (pure (e.readImports key))
  e.compileSource ⟨key, content, none⟩ imports modelType

section
variable (hN : Halt.Covers T N) (hload : ∀ key modelType, (e.load key modelType).Ends H N T)
include hN hload

theorem host_ends {next : Option Renderer} {chain : RenderChain}
    (hnext : ∀ inner : RenderChain, inner.room + 1 = chain.room → ∃ render, next = some render ∧
      ∀ t, T t → ∀ modelType model role, (render t modelType model inner role).Ends H T N) :
    (e.host next chain).Ends H N := by
  have hembed : ∀ key modelType v, EngineCall.Ends H N (fun _ => True) ((e.host next chain).embed key modelType v) := by
    intro key modelType v
    refine (EngineCall.Ends.entered hN.error (chain.enterPartial key)).bind fun inner hinner => ?_
    obtain ⟨render, rfl, hrender⟩ := hnext inner (RenderChain.room_of_enterPartial hinner)
    refine (hload key modelType).bind fun t ht => EngineCall.Ends.inside.bind fun r hr => ?_
    subst hr
    exact .renderFresh (hrender t ht modelType v .part)
  exact ⟨fun key modelType v => (hembed key modelType v).kept, fun key modelType v => (hembed key modelType v).fails⟩

theorem renderWith_ends {next : Option Renderer} {chain : RenderChain}
    (hnext : ∀ inner : RenderChain, inner.room + 1 = chain.room → ∃ render, next = some render ∧
      ∀ t, T t → ∀ modelType model role, (render t modelType model inner role).Ends H T N)
    {t : CompiledTemplate} (ht : T t) (modelType : ModelType) (model : Json) (role : Role) :
    (e.renderWith next t modelType model chain role).Ends H T N := by
  intro c hc
  refine (t.execute_ends hN ht (host_ends hN hload hnext) model c hc).bind fun body _ => ?_
  cases layoutToFollow t role with
  | none => exact .pure trivial
  | some key =>
    refine (EngineCall.Ends.entered hN.error (chain.enter key)).within.bind fun inner hinner => ?_
    obtain ⟨render, rfl, hrender⟩ := hnext inner (RenderChain.room_of_enter hinner)
    refine (hload key modelType).within.bind fun layout hlayout => ?_
    refine EngineCall.Ends.inside.within.bind fun r hr => ?_
    subst hr
    exact inNewFrame_ends (withBody_ends (hrender layout hlayout modelType model .layout)) c hc

/-- A renderer that may nest as deep as a chain has room does not use up its bound. -/
theorem renderer_ends (bound : Nat) {chain : RenderChain} (hroom : chain.room ≤ bound) {t : CompiledTemplate} (ht : T t)
    (modelType : ModelType) (model : Json) (role : Role) : (e.renderer bound t modelType model chain role).Ends H T N := by
  induction bound generalizing chain t modelType model role with
  | zero => exact renderWith_ends hN hload (fun inner hinner => by omega) ht modelType model role
  | succ bound ih =>
    refine renderWith_ends hN hload (fun inner hinner => ⟨_, rfl, fun t ht modelType model role => ?_⟩) ht modelType
      model role
    exact ih (by omega) ht modelType model role

theorem renderPage_ends {t : CompiledTemplate} (ht : T t) (modelType : ModelType) (model : Json) (chain : RenderChain) :
    (e.renderPage t modelType model chain).Ends H N (fun _ => True) :=
  .renderFresh (renderer_ends hN hload _ (Nat.le_refl _) ht modelType model .page)

theorem run_ends_of (key : String) (modelType : ModelType) (model : Json) :
    (e.run key modelType model).Ends H N (fun _ => True) := by
  refine (EngineCall.Ends.entered hN.error _).bind fun chain _ => ?_
  refine (hload key modelType).bind fun t ht => ?_
  exact renderPage_ends hN hload ht modelType model chain

/-- What is compiled of a text does not matter, if it has the property of all templates. -/
theorem runText_ends_of {key content : String} {modelType : ModelType}
    (hworkshop : ∀ s workshop, H s → H { s with workshop })
    (hcompile : (getOrCompile (.of key modelType) (e.compilationOf key content modelType)).Ends H N T) (model : Json) :
    (e.runText key content modelType model).Ends H N (fun _ => True) := by
  refine (EngineCall.Ends.entered hN.error _).bind fun chain _ => ?_
  refine hcompile.bind fun t ht => ?_
  have hpage := renderPage_ends hN hload ht modelType model chain
  dsimp only
  split
  · have hnotice : ∀ update : Workshop → Workshop, EngineCall.Ends H N (fun _ => True)
        (modify fun s : EngineState => { s with workshop := update s.workshop } : EngineCall PUnit) :=
      fun update => ⟨fun s hs => hworkshop s _ hs, fun _ _ _ _ => trivial, fun _ _ _ hh => by cases hh⟩
    exact (hnotice fun w => { w with notices := w.notices ++ [.contentDiffers key] }).bind fun _ _ => hpage
  · exact hpage

end

/-! ### Bounds -/

theorem getOrCompile_ne_exhausted (key : CacheKey) (compile : Compilation CompiledTemplate) :
    (getOrCompile key compile).Ends (fun _ => True) (· ≠ .exhausted) fun _ => True := by
  refine ⟨fun _ _ => trivial, fun _ _ _ _ => trivial, fun s _ h hh => ?_⟩
  unfold getOrCompile at hh
  split at hh
  · cases hh
  · cases hh
    exact fun h => by cases h
  · split at hh
    rename_i outcome _ _
    cases outcome <;> cases hh
    exact fun h => by cases h

/-- Whatever is stored and whatever helpers do, the bound on nested renders is never used up. -/
theorem run_ne_exhausted (e : Engine) (key : String) (modelType : ModelType) (model : Json) (s : EngineState) :
    (e.run key modelType model s).1 ≠ .error .exhausted := by
  have hN : Halt.Covers (fun _ => True) (· ≠ .exhausted) := ⟨fun _ h => (nomatch h), fun _ _ _ _ _ _ h => (nomatch h)⟩
  have hload : ∀ key modelType, (e.load key modelType).Ends (fun _ => True) (· ≠ .exhausted) fun _ => True :=
    fun key modelType => getOrCompile_ne_exhausted (.of key modelType) (e.compilation key modelType)
  exact fun h => (run_ends_of hN hload key modelType model).fails s trivial _ h rfl

end Engine

/-! ### Total helpers -/

/-- The helper gives a value or fails with a message, whatever its arguments. -/
def Helper.Total (h : Helper) : Prop := ∀ args, h.run args ≠ .error .missingArgument

/-- All helpers that the template's code may call are total. -/
def CompiledTemplate.HelpersTotal (t : CompiledTemplate) : Prop := ∀ h ∈ t.program.helpers, h.Total

/-- All helpers that templates of the engine may import are total. -/
def Engine.HelpersTotal (e : Engine) : Prop :=
  ∀ space name h,
    Reference.findHelper? (e.compiler.resolver e.references e.compiler.defaultReferences) space name = some h → h.Total

theorem Program.mem_helpers {references : List Reference} {imports : List Ir.Import} {helpers : List Helper}
    (h : imports.mapM (bindImport references) = .ok helpers) {g : Helper} (hg : g ∈ helpers) :
    ∃ space name, Reference.findHelper? references space name = some g := by
  induction imports generalizing helpers with
  | nil =>
    cases h
    cases hg
  | cons i imports ih =>
    rw [List.mapM_cons] at h
    rcases hfirst : bindImport references i with _ | first
    · rw [hfirst] at h
      cases h
    · rcases hrest : imports.mapM (bindImport references) with _ | rest <;> rw [hfirst, hrest] at h <;> cases h
      rcases List.mem_cons.mp hg with rfl | hg
      · unfold bindImport at hfirst
        split at hfirst
        · rename_i hfind
          cases hfirst
          exact ⟨_, _, hfind⟩
        · cases hfirst
      · exact ih hrest hg

/-- The helpers of a program are found in the references that it is loaded with. -/
theorem Program.load_helpers {binary : String} {references : List Reference} {bases : List BaseType} {p : Program}
    (h : load binary references bases = .ok p) {g : Helper} (hg : g ∈ p.helpers) :
    ∃ space name, Reference.findHelper? references space name = some g := by
  rw [load] at h
  rcases hm : Ir.Module.decode? binary with _ | m <;> rw [hm] at h
  · cases h
  dsimp only at h
  by_cases hformat : m.format = Ir.formatVersion
  · rw [link, if_neg (not_not_intro hformat)] at h
    rcases himports : m.imports.mapM (bindImport references) with _ | helpers <;> rw [himports] at h
    · cases h
    rcases hbase : BaseType.find? bases m.baseType with _ | base <;> rw [hbase] at h <;> cases h
    exact mem_helpers himports hg
  · rw [link, if_pos hformat] at h
    cases h

/-- A compilation gives only certain values. -/
def Compilation.Gives (P : α → Prop) (x : Compilation α) : Prop := ∀ w a, (x w).1 = .ok a → P a

theorem Compilation.Gives.bind {x : Compilation α} {f : α → Compilation β} (hf : ∀ a, Gives Q (f a)) : Gives Q (x >>= f) := by
  intro w b h
  obtain ⟨a, -, hb⟩ := bind_ok h
  exact hf a _ b hb

/-- The helpers of a compiled template are found in the references that its compiler resolves. -/
theorem Compiler.compile_helpers (c : Compiler) (unit : Unit.Generated) (context : TypeContext) (own : List Reference) :
    Compilation.Gives (fun t => ∀ g ∈ t.program.helpers, ∃ space name,
      Reference.findHelper? (c.resolver own c.defaultReferences) space name = some g) (c.compile unit context own) := by
  refine Compilation.Gives.bind fun _ => ?_
  dsimp only
  split
  · refine Compilation.Gives.bind fun kept => ?_
    split
    · exact fun _ _ h => by cases h
    · rename_i hload
      intro _ _ h _ hg
      cases h
      exact Program.load_helpers hload hg
  · exact fun _ _ h => by cases h

namespace Engine

variable {e : Engine} {s : EngineState}

theorem compileSource_total (he : e.HelpersTotal) (source : TemplateSource) (imports : List TemplateSource)
    (modelType : ModelType) : Compilation.Gives CompiledTemplate.HelpersTotal (e.compileSource source imports modelType) := by
  refine Compilation.Gives.bind fun unit w t h => ?_
  obtain ⟨compiled, hcompiled, h⟩ := bind_ok h
  cases h
  intro g hg
  have hfound := e.compiler.compile_helpers unit (e.typeContext source.key modelType) e.references
  obtain ⟨space, name, hfind⟩ := hfound w compiled hcompiled g hg
  exact he space name g hfind

theorem compilationOf_total (he : e.HelpersTotal) (key content : String) (modelType : ModelType) :
    Compilation.Gives CompiledTemplate.HelpersTotal (e.compilationOf key content modelType) :=
  Compilation.Gives.bind fun _ => compileSource_total he _ _ _

theorem compilation_total (he : e.HelpersTotal) (key : String) (modelType : ModelType) :
    Compilation.Gives CompiledTemplate.HelpersTotal (e.compilation key modelType) :=
  Compilation.Gives.bind fun _ => Compilation.Gives.bind fun _ => compileSource_total he _ _ _

/-- Between calls, nothing is waited for; so getting a compilation gives one, or the error that it fails with. -/
theorem getOrCompile_ends (hN : ∀ err, N (.error err)) (key : CacheKey) {compile : Compilation CompiledTemplate}
    (hcompile : Compilation.Gives CompiledTemplate.HelpersTotal compile) :
    (getOrCompile key compile).Ends (EngineState.Stores fun entry => entry.value.HelpersTotal) N
      CompiledTemplate.HelpersTotal := by
  refine .of_run fun s hs => ⟨getOrCompile_stores hs fun _ t ht => hcompile _ t ht, ?_⟩
  cases hentry : s.cache.entry? key with
  | some entry =>
    rw [getOrCompile_stored hentry]
    exact hs.entries entry (Cache.entry?_eq_some hentry).1
  | none =>
    rw [getOrCompile_missing hentry hs.idle]
    cases hout : (compile s.workshop).1 with
    | error err => exact hN err
    | ok t => exact hcompile _ t hout

end Engine

/-! ### Answers -/

/-- A render has ended with an output or with an error. -/
inductive Ended : Except Halt String → Prop
  | output (text : String) : Ended (.ok text)
  | error (err : TemplateError) : Ended (.error (.error err))

/-- A failure that is an error. -/
def Halt.IsError (h : Halt) : Prop := ∃ err, h = .error err

theorem EngineCall.Ends.ended {x : EngineCall String} {P : String → Prop} (hx : x.Ends H Halt.IsError P) {s : EngineState}
    (hs : H s) : Ended (x s).1 := by
  cases h : (x s).1 with
  | ok text => exact .output text
  | error halt =>
    obtain ⟨err, rfl⟩ := hx.fails s hs halt h
    exact .error err

/-- Every render ends with an output or with an error, whatever programs are stored or compiled, as long as helpers are
total. -/
theorem Engine.render_ends {e : Engine} (he : e.HelpersTotal) {s : EngineState} (hidle : s.cache.inFlight = [])
    (hstored : ∀ entry ∈ s.cache.entries, entry.value.HelpersTotal) (key content : String) (modelType : ModelType)
    (model : Json) : Ended (e.run key modelType model s).1 ∧ Ended (e.runText key content modelType model s).1 := by
  have hN : Halt.Covers CompiledTemplate.HelpersTotal Halt.IsError :=
    ⟨fun err => ⟨err, rfl⟩, fun t ht h hh args hrun => absurd hrun (ht h hh args)⟩
  have hload : ∀ key modelType, (e.load key modelType).Ends _ Halt.IsError CompiledTemplate.HelpersTotal :=
    fun key modelType => getOrCompile_ends hN.error (.of key modelType) (compilation_total he key modelType)
  have hcompile := getOrCompile_ends hN.error (.of key modelType) (compilationOf_total he key content modelType)
  have hs : s.Stores fun entry => entry.value.HelpersTotal := ⟨hidle, hstored⟩
  refine ⟨(run_ends_of hN hload key modelType model).ended hs, (runText_ends_of hN hload ?_ hcompile model).ended hs⟩
  exact fun s workshop hs => ⟨hs.idle, hs.entries⟩

/-- A template for any model that includes itself, from a function that calls itself and from a section that renders itself. -/
def selfIncluding : CompiledTemplate where
  template := "page"
  className := ⟨"Template", isName_template⟩
  modelType := .dynamic
  program := ⟨⟨Ir.formatVersion, "", "Template", "html", "dynamic", [], none, false, [],
    [⟨"again", ["n"],
      .binary .and (.var "n") (.call (.function 0) [.call (.builtin .embed) [.literal (.string "page")]]), none⟩],
    [⟨"Foot", [.emit (.call (.builtin .renderSection) [.literal (.string "Foot")]) none,
      .emit (.call (.function 0) [.literal (.bool true)]) none]⟩],
    [.defineSection 0, .emit (.call (.builtin .renderSection) [.literal (.string "Foot")]) none]⟩, [], .html⟩

/-- A template that includes itself in all ways ends with the error that its chain is too long. -/
theorem Engine.render_ends_selfIncluding :
    let e : Engine := { sources := ({} : MemorySource).provider, compiler := { resolver := fun _ _ => [] } }
    let s : EngineState := { cache := { entries := [⟨.of "page" .dynamic, 0, selfIncluding⟩] } }
    (Ended (e.run "page" .dynamic .null s).1 ∧ Ended (e.runText "page" "@Include(\"page\")" .dynamic .null s).1) ∧
      (e.run "page" .dynamic .null s).1 = .error (.error (.layoutDepthExceeded (List.replicate 17 "page") 16)) := by
  intro e s
  refine ⟨render_ends (fun space name h hfind => by cases hfind) rfl (fun entry hentry h hh => ?_) _ _ _ _, ?_⟩
  · cases List.mem_singleton.mp hentry
    cases hh
  · decide +kernel

end Stencil
