import Stencil.Proofs.Render.Frames

/-! Renders end.

A section renders below the frame of its definition, and the sections that it registers itself are hidden in it. So each
section that is rendered within another one is defined in a frame further down, and sections nest no deeper than there are
frames. What a computation does within a frame leaves the frames and the ceilings that were there, so the bound holds in each
scene that a run comes to. -/

namespace Stencil

variable {σ α : Type} {H : σ → Prop} {T : CompiledTemplate → Prop} {N : Halt → Prop} {c : Context Action}

/-- A scene that has come from a context by what the code of a template does in the frame on top. The host's state has a
property, and so has every template that a section of the scene is from. -/
structure Scene.From (H : σ → Prop) (T : CompiledTemplate → Prop) (c : Context Action) (s : Scene σ) : Prop where
  host : H s.host
  grows : c.Grows s.context
  bodies : s.context.bodies = c.bodies
  known : ∀ a, s.context.Holds a → T a.compiled

namespace Scene.From

variable {s : Scene σ}

theorem withHost (hs : s.From H T c) {host : σ} (h : H host) : Scene.From H T c { s with host } :=
  ⟨h, hs.grows, hs.bodies, hs.known⟩

theorem hide (hs : s.From H T c) (frame : Nat) : Scene.From H T (s.context.hide frame) ⟨s.context.hide frame, s.host⟩ :=
  ⟨hs.host, .refl (hs.grows.layered.congr rfl rfl), rfl, hs.known⟩

theorem restoreCeilings (hs : s.From H T c) {frame : Nat} {after : Scene σ}
    (h : after.From H T (s.context.hide frame)) :
    Scene.From H T c ⟨Context.restoreCeilings s.context after.context, after.host⟩ :=
  ⟨h.host, hs.grows.trans h.grows.restoreCeilings, h.bodies.trans hs.bodies, h.known⟩

theorem pushFrame (hs : s.From H T c) : Scene.From H T s.context.pushFrame ⟨s.context.pushFrame, s.host⟩ :=
  ⟨hs.host, .refl hs.grows.layered.pushFrame, rfl, hs.known⟩

theorem restore (hs : s.From H T c) {after : Scene σ} (h : after.From H T s.context.pushFrame) :
    Scene.From H T c ⟨Context.restore s.context after.context, after.host⟩ := by
  have hsame : Context.restore s.context after.context = s.context := by
    have hkeep : Context.keep s.context.bodies.length after.context.bodies = s.context.bodies := by
      rw [h.bodies]
      exact Context.keep_length s.context.bodies
    rw [h.grows.restore_eq hs.grows.layered, hkeep]
  rw [hsame]
  exact ⟨h.host, hs.grows, hs.bodies, hs.known⟩

theorem pushBody (hs : s.From H T c) (b : Body) :
    Scene.From H T (s.context.pushBody b) ⟨s.context.pushBody b, s.host⟩ :=
  ⟨hs.host, .refl (hs.grows.layered.congr rfl rfl), rfl, hs.known⟩

theorem popBody (hs : s.From H T c) {b : Body} {after : Scene σ} (h : after.From H T (s.context.pushBody b)) :
    Scene.From H T c ⟨{ after.context with bodies := s.context.bodies }, after.host⟩ := by
  have hgrows : s.context.Grows { after.context with bodies := s.context.bodies } :=
    ⟨h.grows.layered.congr rfl rfl, h.grows.depth, h.grows.frames, h.grows.sections, h.grows.ceilings⟩
  exact ⟨h.host, hs.grows.trans hgrows, hs.bodies, h.known⟩

theorem define (hs : s.From H T c) {a : Action} {context : Context Action} (hd : s.context.define a.name a = .ok context)
    (ha : T a.compiled) : Scene.From H T c { s with context } := by
  have hbodies : context.bodies = s.context.bodies := by rw [Context.define_eq hd]
  refine ⟨hs.host, hs.grows.trans (.define hs.grows.layered hd), hbodies.trans hs.bodies, fun b hb => ?_⟩
  rcases (Context.define_ok hd).1 b hb with hb | rfl
  · exact hs.known b hb
  · exact ha

/-- What is visible is defined in a frame that the context has and shows. -/
theorem visible (hs : s.From H T c) {name : String} {e : Entry Action} (he : s.context.visibleEntry? name = some e) :
    e.frame < c.depth ∧ c.shows e.frame = true ∧ T e.action.compiled := by
  have hdepth : e.frame < c.depth := hs.grows.depth ▸ hs.grows.layered.visible_below he
  have hshows : c.shows = s.context.shows := by
    unfold Context.shows
    rw [hs.grows.ceilings]
  exact ⟨hdepth, hshows ▸ Context.visibleEntry?_shows he, hs.known _ (Context.holds_of_visibleEntry? he)⟩

end Scene.From

/-- An execution keeps a property of the host's state and one of the templates, does its work in the frame on top, and fails
only in certain ways. -/
def Execution.Ends (H : σ → Prop) (T : CompiledTemplate → Prop) (N : Halt → Prop) (x : Execution σ α) : Prop :=
  ∀ c : Context Action, c.Layered → Keeps (Scene.From H T c) N (fun _ => True) x

/-- Partials keep a property of the host's state, and fail only in certain ways. -/
structure Host.Ends (H : σ → Prop) (N : Halt → Prop) (host : Host σ) : Prop where
  kept : ∀ key modelType v s, H s → H (host.embed key modelType v s).2
  fails : ∀ key modelType v s, H s → ∀ h, (host.embed key modelType v s).1 = .error h → N h

theorem Host.Ends.partial {host : Host σ} (h : host.Ends H N) (key : String) (modelType : ModelType) (v : Json) :
    (host.partial key modelType v).Ends H T N := fun _ _ => {
  kept := fun s hs => hs.withHost (h.kept key modelType v s.host hs.host)
  gives := fun _ _ _ _ => trivial
  fails := fun s hs _ he => h.fails key modelType v s.host hs.host _ he }

/-- Rendering the visible section of a name keeps what rendering it under its ceiling keeps. -/
theorem renderVisible_from {name : String} {render : Action → Execution σ α}
    (h : ∀ s : Scene σ, s.From H T c → ∀ e, s.context.visibleEntry? name = some e →
      Keeps (Scene.From H T (s.context.hide e.frame)) N (fun _ => True) (render e.action)) :
    Keeps (Scene.From H T c) N (fun _ => True) (renderVisible name render) :=
  renderVisible_keeps fun s hs e he =>
    ⟨Scene.From H T (s.context.hide e.frame), hs.hide e.frame, h s hs e he, fun _ hafter => hs.restoreCeilings hafter⟩

/-- Errors are among the failures, and so is a helper that misses an argument, if one of a template with the property can. -/
structure Halt.Covers (T : CompiledTemplate → Prop) (N : Halt → Prop) : Prop where
  error : ∀ err, N (.error err)
  missingArgument : ∀ t, T t → ∀ h ∈ t.program.helpers, ∀ args, h.run args = .error .missingArgument →
    N .missingArgument

section
variable (hN : Halt.Covers T N)
include hN

/-! ### Sections -/

theorem register_from {m : Machine σ} (hT : T m.compiled) (index : Nat) (locals : Locals) :
    Keeps (Scene.From H T c) N (fun _ => True) (m.register index locals) :=
  register_keeps (fun _ _ hs hd => hs.define hd hT) fun _ _ _ _ => hN.error _

/-- Code fails only in certain ways, if the sections and partials around it do. -/
theorem Machine.output_from {m : Machine σ} (hT : T m.compiled)
    (hm : m.Surrounded (Scene.From H T c) N) (locals : Locals) (body : List Ir.Stmt) :
    Keeps (Scene.From H T c) N (fun _ => True) (m.output locals body) := by
  refine output_keeps hm ⟨fun f h hf hp => ?_, fun _ index locals _ _ => register_from hN hT index locals⟩
  cases hp with
  | cause => exact hN.error _
  | nested =>
    cases hf with
    | expr _ hfails =>
      cases hfails with
      | missingArgument hslot _ hrun => exact hN.missingArgument _ hT _ (List.mem_of_getElem? hslot) _ hrun

theorem Action.renderWith_from {a : Action} (hT : T a.compiled) {host : Host σ} (hhost : host.Ends H N) (hc : c.Layered)
    {renderSection : String → Execution σ (Option String)}
    (hsections : ∀ name, Keeps (Scene.From H T c) N (fun _ => True) (renderSection name)) :
    Keeps (Scene.From H T c) N (fun _ => True) (a.renderWith host renderSection) := by
  unfold renderWith
  split
  · exact .throw (hN.error _)
  · exact Machine.output_from hN hT ⟨hsections, fun key modelType v => hhost.partial key modelType v c hc⟩ _ _

/-- Sections nest no deeper than the frames that are shown: a section is rendered below the frame of its definition. -/
theorem renderSectionTo_from {host : Host σ} (hhost : host.Ends H N) (bound : Nat) (hc : c.Layered)
    (hbound : ∀ g < c.depth, c.shows g = true → g < bound) (name : String) :
    Keeps (Scene.From H T c) N (fun _ => True) (renderSectionTo host bound name) := by
  induction bound generalizing c name with
  | zero =>
    refine renderVisible_from fun s hs e he => ?_
    obtain ⟨hdepth, hshows, -⟩ := hs.visible he
    exact absurd (hbound e.frame hdepth hshows) (Nat.not_lt_zero _)
  | succ bound ih =>
    refine renderVisible_from fun s hs e he => ?_
    obtain ⟨hdepth, hshows, hT⟩ := hs.visible he
    have hlayered : (s.context.hide e.frame).Layered := hs.grows.layered.congr rfl rfl
    refine Action.renderWith_from hN hT hhost hlayered (ih hlayered fun g hg hshown => ?_)
    -- Within the section, only frames below its own are shown of those that are there.
    exact Nat.lt_of_lt_of_le ((Context.shows_hide hg).mp hshown) (Nat.le_of_lt_succ (hbound _ hdepth hshows))

/-! ### Templates -/

/-- The execution of a template never uses up the bound on its sections: it is the number of frames. -/
theorem CompiledTemplate.execute_ends {t : CompiledTemplate} (hT : T t) {host : Host σ} (hhost : host.Ends H N) (model : Json) :
    (t.execute model host).Ends H T N := by
  intro c hc
  refine Keeps.get.bind fun s hs => ?_
  have hsections : ∀ name, Keeps (Scene.From H T c) N (fun _ => True) (renderSectionTo host s.context.depth name) :=
    fun name => renderSectionTo_from hN hhost _ hc (fun g hg _ => hs.grows.depth ▸ hg) name
  exact Machine.output_from hN hT ⟨hsections, fun key modelType v => hhost.partial key modelType v c hc⟩ _ _

end

theorem inNewFrame_ends {x : Execution σ α} (hx : x.Ends H T N) : (inNewFrame x).Ends H T N := by
  intro c hc
  have hinner : ∀ s : Scene σ, s.From H T c → Keeps (Scene.From H T s.context.pushFrame) N (fun _ => True) x :=
    fun s hs => hx _ hs.grows.layered.pushFrame
  constructor <;> intro s hs
  · exact hs.restore ((hinner s hs).kept _ hs.pushFrame)
  · exact fun _ _ => trivial
  · exact fun e he => (hinner s hs).fails _ hs.pushFrame e he

end Stencil
