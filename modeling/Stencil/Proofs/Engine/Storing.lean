import Stencil.Engine.History
import Stencil.Proofs.Cache.SingleFlight
import Stencil.Proofs.Engine.Keeping

/-! What an engine stores.

Between the calls of an engine no compilation is under way. So a look-up finds either a stored compilation or nothing,
and what is found missing is compiled and stored: whatever holds of every compilation that is made holds of all that is
stored. -/

namespace Stencil

/-- The class of a template may have this name. -/
theorem isName_template : Text.isName "Template".toList = true := by decide

namespace Cache

variable {τ : Type}

/-- A cache after the compilation for a key that it did not store, when no other was under way. -/
def settle (c : Cache τ) (key : CacheKey) : Except TemplateError τ → Cache τ
  | .ok value => ⟨⟨key, c.next, value⟩ :: c.entries, [], c.next + 1⟩
  | .error _ => ⟨c.entries, [], c.next + 1⟩

theorem lookup_of_stored {c : Cache τ} {key : CacheKey} {entry : CacheEntry τ} (h : c.entry? key = some entry) :
    c.lookup key = (.hit entry, c) := by
  rw [lookup, h]

theorem lookup_of_missing {c : Cache τ} {key : CacheKey} (h : c.entry? key = none) (hidle : c.inFlight = []) :
    c.lookup key = (.lead c.next, { c with inFlight := [(key, c.next)], next := c.next + 1 }) := by
  rw [lookup, h, slot?, hidle]
  rfl

/-- The compilation of a missing key is the only one under way, so it is settled when it ends. -/
theorem complete_of_missing {c : Cache τ} {key : CacheKey} (h : c.entry? key = none) (outcome : Except TemplateError τ) :
    ({ c with inFlight := [(key, c.next)], next := c.next + 1 } : Cache τ).complete key c.next outcome =
      c.settle key outcome := by
  have hslot : ({ c with inFlight := [(key, c.next)], next := c.next + 1 } : Cache τ).slot? key = some c.next := by
    show ([(key, c.next)].find? fun slot => slot.1 == key).map (·.2) = _
    rw [List.find?_cons_of_pos (by exact beq_self_eq_true key)]
    rfl
  have hflight : [(key, c.next)].filter (·.1 != key) = [] := by
    rw [List.filter_cons_of_neg (by simp), List.filter_nil]
  have hentries : c.entries.filter (·.key != key) = c.entries := filter_key_eq_self (entry?_eq_none.mp h)
  rw [complete, if_pos hslot]
  cases outcome with
  | ok value => simp only [hflight, hentries, settle]
  | error err => simp only [hflight, settle]

end Cache

namespace EngineState

/-- Between calls: no compilation is under way, and every stored one has a property. -/
structure Stores (P : CacheEntry CompiledTemplate → Prop) (s : EngineState) : Prop where
  idle : s.cache.inFlight = []
  entries : ∀ entry ∈ s.cache.entries, P entry

variable {P Q : CacheEntry CompiledTemplate → Prop} {s : EngineState}

theorem Stores.settle (h : s.Stores P) {key : CacheKey} {outcome : Except TemplateError CompiledTemplate}
    (hP : ∀ slot t, outcome = .ok t → P ⟨key, slot, t⟩) (workshop : Workshop) :
    (EngineState.mk (s.cache.settle key outcome) workshop).Stores P := by
  cases outcome with
  | error err => exact ⟨rfl, h.entries⟩
  | ok t =>
    refine ⟨rfl, fun entry hentry => ?_⟩
    rcases List.mem_cons.mp hentry with rfl | hentry
    · exact hP _ t rfl
    · exact h.entries entry hentry

theorem Stores.invalidate (h : s.Stores P) (key : String) :
    (Engine.invalidate key s).2.Stores fun entry => P entry ∧ entry.key.template ≠ key where
  idle := by
    show s.cache.inFlight.filter _ = []
    rw [h.idle]
    rfl
  entries entry hentry := by
    obtain ⟨hmem, hkey⟩ := List.mem_filter.mp hentry
    exact ⟨h.entries entry hmem, bne_iff_ne.mp hkey⟩

theorem Stores.mono (h : s.Stores P) (hPQ : ∀ entry, P entry → Q entry) : s.Stores Q :=
  ⟨h.idle, fun entry hentry => hPQ entry (h.entries entry hentry)⟩

theorem Stores.of_idle (h : s.cache.inFlight = []) : s.Stores fun _ => True := ⟨h, fun _ _ => trivial⟩

end EngineState

namespace Engine

variable {e : Engine} {P : CacheEntry CompiledTemplate → Prop} {s : EngineState}

/-- How the template with a key is compiled when it is not stored. -/
def compilation (e : Engine) (key : String) (modelType : ModelType) : Compilation CompiledTemplate := do
  let source ← ExceptT.mk (pure (e.readSource key))
  let imports ← ExceptT.mk (pure (e.readImports key))
  e.compileSource source imports modelType

theorem load_eq (key : String) (modelType : ModelType) :
    e.load key modelType = getOrCompile (.of key modelType) (e.compilation key modelType) := rfl

theorem getOrCompile_stored {key : CacheKey} {compile : Compilation CompiledTemplate} {entry : CacheEntry CompiledTemplate}
    (h : s.cache.entry? key = some entry) : getOrCompile key compile s = (.ok entry.value, s) := by
  rw [getOrCompile, Cache.lookup_of_stored h]

theorem getOrCompile_missing {key : CacheKey} {compile : Compilation CompiledTemplate} (h : s.cache.entry? key = none)
    (hidle : s.cache.inFlight = []) :
    getOrCompile key compile s = ((compile s.workshop).1.mapError .error,
      ⟨s.cache.settle key (compile s.workshop).1, (compile s.workshop).2⟩) := by
  rw [getOrCompile, Cache.lookup_of_missing h hidle, ← Cache.complete_of_missing h]
  rfl

/-- What holds of the compilation for a key is kept by getting it. -/
theorem getOrCompile_stores {key : CacheKey} {compile : Compilation CompiledTemplate} (h : s.Stores P)
    (hP : ∀ slot t, (compile s.workshop).1 = .ok t → P ⟨key, slot, t⟩) : (getOrCompile key compile s).2.Stores P := by
  rcases hentry : s.cache.entry? key with _ | entry
  · rw [getOrCompile_missing hentry h.idle]
    exact h.settle hP _
  · rw [getOrCompile_stored hentry]
    exact h

theorem load_stores (h : s.Stores P) {key : String} {modelType : ModelType}
    (hP : ∀ slot t, (e.compilation key modelType s.workshop).1 = .ok t → P ⟨.of key modelType, slot, t⟩) :
    (e.load key modelType s).2.Stores P :=
  getOrCompile_stores h hP

theorem bind_stores {α β : Type} {x : EngineCall α} {f : α → EngineCall β} (hx : (x s).2.Stores P)
    (hf : ∀ a s', s'.Stores P → (f a s').2.Stores P) : ((x >>= f) s).2.Stores P := by
  rw [bind_run]
  cases (x s).1 with
  | error _ => exact hx
  | ok a => exact hf a _ hx

theorem pageChain_run (key : String) (s : EngineState) :
    e.pageChain key s =
      ((({ maxDepth := e.settings.runtime.maxLayoutDepth } : RenderChain).enter key).mapError .error, s) := rfl

section
variable (h : s.Stores P)
  (hP : ∀ key modelType w slot t, (e.compilation key modelType w).1 = .ok t → P ⟨.of key modelType, slot, t⟩)
include h hP

/-- Rendering a page stores what holds of everything that it may compile. -/
theorem renderPage_stores (t : CompiledTemplate) (modelType : ModelType) (model : Json) (chain : RenderChain) :
    (e.renderPage t modelType model chain s).2.Stores P :=
  (renderPage_keeps (fun key modelType s h => load_stores h (hP key modelType s.workshop)) t modelType model chain h).1

theorem run_stores (key : String) (modelType : ModelType) (model : Json) : (e.run key modelType model s).2.Stores P := by
  refine bind_stores (x := e.pageChain key) h fun chain s h => ?_
  refine bind_stores (load_stores h (hP key modelType s.workshop)) fun t s h => ?_
  exact renderPage_stores h hP t modelType model chain

theorem runText_stores {key : String} {modelType : ModelType} {content : String} (hcontent : ∀ slot t, P ⟨.of key modelType, slot, t⟩) (model : Json) :
    (e.runText key content modelType model s).2.Stores P := by
  refine bind_stores (x := e.pageChain key) h fun chain s h => ?_
  refine bind_stores (getOrCompile_stores h fun slot t _ => hcontent slot t) fun t s h => ?_
  dsimp only
  split
  · refine bind_stores (x := modify _) ⟨h.idle, h.entries⟩ fun _ s h => ?_
    exact renderPage_stores h hP t modelType model chain
  · exact renderPage_stores h hP t modelType model chain

theorem compile_stores (key : String) (modelType : ModelType) : (e.compile key modelType s).2.Stores P :=
  bind_stores (load_stores h (hP key modelType s.workshop)) fun _ _ h => h

end

end Engine

theorem EngineRequest.perform_run (e : Engine) (key : String) (modelType : ModelType) (model : Json) (s : EngineState) :
    EngineRequest.perform e (.run key modelType model) s =
      ((e.run key modelType model s).1.map .output, (e.run key modelType model s).2) := by
  show (e.run key modelType model >>= fun text => pure (.output text) : EngineCall EngineReply) s = _
  rw [bind_run]
  cases (e.run key modelType model s).1 <;> rfl

/-- Serving a request stores what holds of everything that may be compiled. -/
theorem EngineRequest.perform_stores {e : Engine} {P : CacheEntry CompiledTemplate → Prop} {s : EngineState}
    (h : s.Stores P)
    (hP : ∀ key modelType w slot t, (e.compilation key modelType w).1 = .ok t → P ⟨.of key modelType, slot, t⟩)
    (r : EngineRequest) : (r.perform e s).2.Stores P := by
  cases r with
  | run key modelType model => exact Engine.bind_stores (Engine.run_stores h hP key modelType model) fun _ _ h => h
  | compile key modelType => exact Engine.bind_stores (Engine.compile_stores h hP key modelType) fun _ _ h => h
  | invalidate key => exact (h.invalidate key).mono fun _ hentry => hentry.1

/-! ### Without files -/

/-- A compilation that does not depend on the ones before it, and leaves no files, if binaries are kept in memory. What it
gives has a property. -/
def Compilation.Settled {α : Type} (P : α → Prop) (x : Compilation α) : Prop :=
  ∃ outcome, (∀ a, outcome = .ok a → P a) ∧
    ∀ w : Workshop, w.artifacts.folder = none → (x w).1 = outcome ∧ (x w).2.artifacts = w.artifacts

namespace Compilation.Settled

variable {α β : Type} {P : α → Prop} {Q : β → Prop}

theorem mk {x : Except TemplateError α} (h : ∀ a, x = .ok a → P a) : Settled P (ExceptT.mk (pure x)) :=
  ⟨x, h, fun _ _ => ⟨rfl, rfl⟩⟩

theorem bind {x : Compilation α} {f : α → Compilation β} (hx : Settled P x) (hf : ∀ a, P a → Settled Q (f a)) :
    Settled Q (x >>= f) := by
  obtain ⟨outcome, hgives, hx⟩ := hx
  cases outcome with
  | error err =>
    refine ⟨.error err, fun _ h => (by cases h), fun w hw => ?_⟩
    obtain ⟨hout, hartifacts⟩ := hx w hw
    rw [bind_run, hout]
    exact ⟨rfl, hartifacts⟩
  | ok a =>
    obtain ⟨outcome, hgives', hf⟩ := hf a (hgives a rfl)
    refine ⟨outcome, hgives', fun w hw => ?_⟩
    obtain ⟨hout, hartifacts⟩ := hx w hw
    obtain ⟨hout', hartifacts'⟩ := hf (x w).2 (by rw [hartifacts, hw])
    rw [bind_run, hout]
    exact ⟨hout', hartifacts'.trans hartifacts⟩

end Compilation.Settled

theorem Compiler.compile_settled (c : Compiler) (unit : Unit.Generated) (context : TypeContext) (own : List Reference) :
    Compilation.Settled (·.modelType = context.modelType) (c.compile unit context own) := by
  have hkeep : ∀ binary, Compilation.Settled (fun _ => True) (keepBinary unit binary) := by
    refine fun binary => ⟨.ok (binary, none), fun _ _ => trivial, fun w hw => ?_⟩
    rw [keepBinary, hw]
    exact ⟨rfl, rfl⟩
  refine Compilation.Settled.bind (P := fun _ => True) ⟨.ok (), fun _ _ => trivial, fun _ _ => ⟨rfl, rfl⟩⟩ fun _ _ => ?_
  dsimp only
  split
  · refine (hkeep _).bind fun kept _ => ?_
    split
    · exact .mk fun _ h => by cases h
    · exact .mk fun _ h => by cases h; rfl
  · exact .mk fun _ h => by cases h

/-- What a source is compiled to without files depends on nothing else, and is for the model type that is asked for. -/
theorem Engine.compileSource_settled (e : Engine) (source : TemplateSource) (imports : List TemplateSource)
    (modelType : ModelType) : Compilation.Settled (·.modelType = modelType) (e.compileSource source imports modelType) := by
  refine Compilation.Settled.bind (P := fun _ => True) (.mk fun _ _ => trivial) fun unit _ => ?_
  exact (e.compiler.compile_settled _ _ _).bind fun t ht => .mk fun _ h => by cases h; exact ht

theorem Engine.compilation_settled (e : Engine) (key : String) (modelType : ModelType) :
    Compilation.Settled (·.modelType = modelType) (e.compilation key modelType) := by
  refine Compilation.Settled.bind (P := fun _ => True) (.mk fun _ _ => trivial) fun source _ => ?_
  exact Compilation.Settled.bind (P := fun _ => True) (.mk fun _ _ => trivial) fun imports _ =>
    e.compileSource_settled source imports modelType

/-! ### Over time -/

namespace LiveEngine

/-- Whatever happens, no compilation is under way afterwards. -/
theorem step_idle {l : LiveEngine} (h : l.state.cache.inFlight = []) (event : EngineEvent) :
    (l.step event).state.cache.inFlight = [] := by
  have hstores : l.state.Stores fun _ => True := .of_idle h
  cases event with
  | request r =>
    exact (r.perform_stores (P := fun _ => True) hstores fun _ _ _ _ _ _ => trivial).idle
  | runText key content modelType model =>
    exact (Engine.runText_stores hstores (fun _ _ _ _ _ _ => trivial) (fun _ _ => trivial) model).idle
  | clear => rfl
  | insert key content => exact h
  | remove key => exact h

theorem after_idle {l : LiveEngine} (h : l.state.cache.inFlight = []) (events : List EngineEvent) :
    (l.after events).state.cache.inFlight = [] := by
  induction events generalizing l with
  | nil => exact h
  | cons event events ih => exact ih (step_idle h event)

end LiveEngine

end Stencil
