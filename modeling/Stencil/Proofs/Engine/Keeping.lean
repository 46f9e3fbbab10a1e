import Stencil.Engine.Basic
import Stencil.Proofs.Render.Registering

/-! What a render leaves behind.

The code of a template reaches the host through partials only, and it never touches the outputs that layouts wrap. So
what every loading keeps of the engine's state is kept by every render, and each layout finds the output that it wraps
still in place. -/

namespace Stencil

variable {σ α : Type}

namespace Context

theorem define_bodies {c c' : Context α} {name : String} {a : α} (h : c.define name a = .ok c') : c'.bodies = c.bodies := by
  rw [define_eq h]

theorem bodies_popFrame (c : Context α) : c.popFrame.bodies = c.bodies := by
  unfold popFrame
  split <;> rfl

theorem bodies_popFrames (n : Nat) (c : Context α) : (popFrames n c).bodies = c.bodies := by
  induction n generalizing c with
  | zero => rfl
  | succ n ih => rw [popFrames, ih, bodies_popFrame]

theorem bodies_restore {before c : Context α} (h : c.bodies = before.bodies) : (restore before c).bodies = before.bodies := by
  show keep before.bodies.length (popFrames _ c).bodies = _
  rw [bodies_popFrames, h, keep_length]

end Context

/-- A scene in which the host's state has a property and given outputs are to be wrapped. -/
structure Scene.Within (H : σ → Prop) (bodies : List Body) (s : Scene σ) : Prop where
  host : H s.host
  bodies : s.context.bodies = bodies

/-- Partials keep a property of the host's state, and never miss an output to wrap. -/
structure Host.Keeps (host : Host σ) (H : σ → Prop) : Prop where
  kept : ∀ key modelType v s, H s → H (host.embed key modelType v s).2
  fails : ∀ key modelType v s, H s → (host.embed key modelType v s).1 ≠ .error .noBody

variable {H : σ → Prop} {bodies : List Body} {host : Host σ}

theorem Host.Keeps.partial (h : host.Keeps H) (key : String) (modelType : ModelType) (v : Json) :
    Stencil.Keeps (Scene.Within H bodies) (· ≠ .noBody) (fun _ => True) (host.partial key modelType v) where
  kept s hs := ⟨h.kept key modelType v s.host hs.host, hs.bodies⟩
  gives _ _ _ _ := trivial
  fails s hs _ he heq := h.fails key modelType v s.host hs.host (heq ▸ he)

/-! ### Templates and sections -/

/-- Code whose sections and partials keep the host's state and the outputs to wrap does so too. -/
theorem Machine.output_within {m : Machine σ} (hpartial : m.host.Keeps H)
    (hsections : ∀ name, Keeps (Scene.Within H bodies) (· ≠ .noBody) (fun _ => True) (m.renderSection name))
    (locals : Locals) (body : List Ir.Stmt) :
    Keeps (Scene.Within H bodies) (· ≠ .noBody) (fun _ => True) (m.output locals body) := by
  refine output_keeps ⟨hsections, fun key modelType v => hpartial.partial key modelType v⟩ ⟨?_, ?_⟩
  · rintro f h hf hp rfl
    cases hp
    cases hf with
    | expr _ hfails => cases hfails
  · intro names index locals' _ _
    refine register_keeps (fun s c hs hd => ?_) fun s c hs hd => ?_
    · exact ⟨hs.host, (Context.define_bodies hd).trans hs.bodies⟩
    · exact fun h => by cases h

theorem Action.renderWith_within (a : Action) (hpartial : host.Keeps H) {renderSection : String → Execution σ (Option String)}
    (hsections : ∀ name, Keeps (Scene.Within H bodies) (· ≠ .noBody) (fun _ => True) (renderSection name)) :
    Keeps (Scene.Within H bodies) (· ≠ .noBody) (fun _ => True) (a.renderWith host renderSection) := by
  unfold renderWith
  split
  · exact .throw fun h => by cases h
  · exact Machine.output_within hpartial hsections _ _

theorem renderSectionTo_within (hpartial : host.Keeps H) (depth : Nat) (name : String) :
    Keeps (Scene.Within H bodies) (· ≠ .noBody) (fun _ => True) (renderSectionTo host depth name) := by
  have hvisible : ∀ (name : String) {render : Action → Execution σ String},
      (∀ a, Keeps (Scene.Within H bodies) (· ≠ .noBody) (fun _ => True) (render a)) →
      Keeps (Scene.Within H bodies) (· ≠ .noBody) (fun _ => True) (renderVisible name render) :=
    fun _ _ h => renderVisible_keeps fun _ hs e _ =>
      ⟨Scene.Within H bodies, ⟨hs.host, hs.bodies⟩, h e.action, fun _ hafter => ⟨hafter.host, hafter.bodies⟩⟩
  induction depth generalizing name with
  | zero => exact hvisible name fun _ => .throw fun h => by cases h
  | succ depth ih => exact hvisible name fun a => a.renderWith_within hpartial ih

/-- The execution of a template keeps what partials keep, and the outputs to wrap. -/
theorem CompiledTemplate.execute_within (t : CompiledTemplate) (model : Json) (hpartial : host.Keeps H) :
    Keeps (Scene.Within H bodies) (· ≠ .noBody) (fun _ => True) (t.execute model host) := by
  refine Keeps.get.bind fun s _ => ?_
  exact Machine.output_within hpartial (renderSectionTo_within hpartial _) _ _

/-! ### Frames and bodies -/

theorem inNewFrame_within {x : Execution σ α} (h : Keeps (Scene.Within H bodies) (· ≠ .noBody) (fun _ => True) x) :
    Keeps (Scene.Within H bodies) (· ≠ .noBody) (fun _ => True) (inNewFrame x) where
  kept s hs := by
    have hafter := h.kept ⟨s.context.pushFrame, s.host⟩ ⟨hs.host, hs.bodies⟩
    exact ⟨hafter.host, (Context.bodies_restore (hafter.bodies.trans hs.bodies.symm)).trans hs.bodies⟩
  gives _ _ _ _ := trivial
  fails s hs e he := h.fails ⟨s.context.pushFrame, s.host⟩ ⟨hs.host, hs.bodies⟩ e he

/-- What keeps the outputs to wrap finds its own still on top, so that it is taken off. -/
theorem withBody_eq {b : Body} {x : Execution σ α} {s : Scene σ}
    (h : (x { s with context := s.context.pushBody b }).2.context.bodies = b :: s.context.bodies) :
    withBody b x s = ((x { s with context := s.context.pushBody b }).1,
      { (x { s with context := s.context.pushBody b }).2 with
        context := { (x { s with context := s.context.pushBody b }).2.context with bodies := s.context.bodies } }) := by
  unfold withBody Context.popBody?
  generalize x { s with context := s.context.pushBody b } = r at h ⊢
  obtain ⟨result, after⟩ := r
  dsimp only at h ⊢
  rw [h]

theorem withBody_within {b : Body} {x : Execution σ α}
    (h : Keeps (Scene.Within H (b :: bodies)) (· ≠ .noBody) (fun _ => True) x) :
    Keeps (Scene.Within H bodies) (· ≠ .noBody) (fun _ => True) (withBody b x) := by
  have hpushed : ∀ s, Scene.Within H bodies s →
      Scene.Within H (b :: bodies) { s with context := s.context.pushBody b } :=
    fun s hs => ⟨hs.host, congrArg (b :: ·) hs.bodies⟩
  have hrun : ∀ s, Scene.Within H bodies s → withBody b x s = _ := fun s hs =>
    withBody_eq ((h.kept _ (hpushed s hs)).bodies.trans (congrArg (b :: ·) hs.bodies.symm))
  constructor <;> intro s hs <;> rw [hrun s hs]
  · exact ⟨(h.kept _ (hpushed s hs)).host, hs.bodies⟩
  · exact fun _ _ => trivial
  · exact fun e he => h.fails _ (hpushed s hs) e he

/-! ### Engines -/

namespace Engine

variable {e : Engine} {H : EngineState → Prop}

theorem within_keeps {x : EngineCall α} (hkept : ∀ s, H s → H (x s).2) (hfails : ∀ s, H s → (x s).1 ≠ .error .noBody) :
    Keeps (Scene.Within H bodies) (· ≠ .noBody) (fun _ => True) (within x) where
  kept s hs := ⟨hkept s.host hs.host, hs.bodies⟩
  gives _ _ _ _ := trivial
  fails s hs _ hh heq := hfails s.host hs.host (heq ▸ hh)

theorem entered_run (chain : Except TemplateError RenderChain) (s : EngineState) :
    entered chain s = (chain.mapError .error, s) := rfl

theorem load_ne_noBody (key : String) (modelType : ModelType) (s : EngineState) :
    (e.load key modelType s).1 ≠ .error .noBody := by
  unfold load getOrCompile
  split
  · exact fun h => by cases h
  · exact fun h => by cases h
  · split
    rename_i outcome _ _
    cases outcome <;> exact fun h => by cases h

theorem inside_run (next : Option Renderer) (s : EngineState) :
    inside next s = (match next with
      | some render => .ok render
      | none => .error .exhausted, s) := by
  cases next <;> rfl

/-- What a render keeps in a frame of its own is kept by rendering with a fresh context. -/
theorem renderFresh_keeps {render : Renderer} {t : CompiledTemplate} {modelType : ModelType} {model : Json}
    {chain : RenderChain} {role : Role}
    (h : Keeps (Scene.Within H []) (· ≠ .noBody) (fun _ => True) (render t modelType model chain role)) {s : EngineState}
    (hs : H s) : H (renderFresh render t modelType model chain role s).2 ∧
      (renderFresh render t modelType model chain role s).1 ≠ .error .noBody := by
  have hframe := inNewFrame_within h
  exact ⟨(hframe.kept ⟨{}, s⟩ ⟨hs, rfl⟩).host, fun he => hframe.fails ⟨{}, s⟩ ⟨hs, rfl⟩ _ he rfl⟩

/-- What the renderers further inside keep is kept by the partials of a template. -/
theorem host_keeps {next : Option Renderer} (hload : ∀ key modelType s, H s → H (e.load key modelType s).2)
    (hnext : ∀ render, next = some render → ∀ t modelType model chain role bodies,
      Keeps (Scene.Within H bodies) (· ≠ .noBody) (fun _ => True) (render t modelType model chain role))
    (chain : RenderChain) : (e.host next chain).Keeps H := by
  have hembed : ∀ key modelType v s, H s → H ((e.host next chain).embed key modelType v s).2 ∧
      ((e.host next chain).embed key modelType v s).1 ≠ .error .noBody := by
    intro key modelType v s hs
    show H ((entered _ >>= _ : EngineCall String) s).2 ∧ ((entered _ >>= _ : EngineCall String) s).1 ≠ _
    rw [bind_run, entered_run]
    cases chain.enterPartial key with
    | error _ => exact ⟨hs, fun h => by cases h⟩
    | ok chain =>
      show H ((e.load key modelType >>= _ : EngineCall String) s).2 ∧
        ((e.load key modelType >>= _ : EngineCall String) s).1 ≠ _
      rw [bind_run]
      have hloaded := hload key modelType s hs
      rcases ht : (e.load key modelType s).1 with halt | t
      · exact ⟨hloaded, fun h => load_ne_noBody key modelType s (ht.trans (by cases h; rfl))⟩
      · dsimp only
        rw [bind_run, inside_run]
        cases hn : next with
        | none => exact ⟨hloaded, fun h => by cases h⟩
        | some render => exact renderFresh_keeps (hnext render hn t modelType v chain .part []) hloaded
  exact ⟨fun key modelType v s hs => (hembed key modelType v s hs).1, fun key modelType v s hs => (hembed key modelType v s hs).2⟩

theorem renderWith_within {next : Option Renderer} (hload : ∀ key modelType s, H s → H (e.load key modelType s).2)
    (hnext : ∀ render, next = some render → ∀ t modelType model chain role bodies,
      Keeps (Scene.Within H bodies) (· ≠ .noBody) (fun _ => True) (render t modelType model chain role))
    (t : CompiledTemplate) (modelType : ModelType) (model : Json) (chain : RenderChain) (role : Role) (bodies : List Body) :
    Keeps (Scene.Within H bodies) (· ≠ .noBody) (fun _ => True) (e.renderWith next t modelType model chain role) := by
  refine (t.execute_within model (host_keeps hload hnext chain)).bind fun body _ => ?_
  cases layoutToFollow t role with
  | none => exact .pure trivial
  | some key =>
    dsimp only
    refine Keeps.bind (P := fun _ => True) ?_ fun chain _ => ?_
    · refine within_keeps (fun s hs => hs) fun s _ h => ?_
      rw [entered_run] at h
      cases hc : chain.enter key <;> rw [hc] at h <;> cases h
    · refine (within_keeps (hload key modelType) fun s _ => load_ne_noBody key modelType s).bind fun layout _ => ?_
      refine Keeps.bind (P := fun render => next = some render) ?_ fun render hrender => ?_
      · cases next with
        | none => exact .throw fun h => by cases h
        | some render => exact .pure rfl
      · exact inNewFrame_within (withBody_within (hnext render hrender layout modelType model chain .layout _))

/-- What every loading keeps of an engine's state is kept by every render; the outputs to wrap are as before
afterwards, and none was missed. -/
theorem renderer_within (hload : ∀ key modelType s, H s → H (e.load key modelType s).2) (room : Nat) :
    ∀ t modelType model chain role bodies,
      Keeps (Scene.Within H bodies) (· ≠ .noBody) (fun _ => True) (e.renderer room t modelType model chain role) := by
  induction room with
  | zero => exact renderWith_within hload fun _ h => by cases h
  | succ room ih =>
    refine renderWith_within hload fun render h => ?_
    cases h
    exact ih

/-- What every loading keeps is kept by the render of a page, and no output to wrap is missed. -/
theorem renderPage_keeps (hload : ∀ key modelType s, H s → H (e.load key modelType s).2) (t : CompiledTemplate)
    (modelType : ModelType) (model : Json) (chain : RenderChain) {s : EngineState} (hs : H s) :
    H (e.renderPage t modelType model chain s).2 ∧ (e.renderPage t modelType model chain s).1 ≠ .error .noBody :=
  renderFresh_keeps (renderer_within hload chain.room t modelType model chain .page []) hs

end Engine

end Stencil
