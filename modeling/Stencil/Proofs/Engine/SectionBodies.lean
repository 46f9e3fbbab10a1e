import Stencil.Proofs.Engine.Layouts
import Stencil.Proofs.Render.Ending

/-! The output to wrap, in sections.

A section takes the template and the model it was registered with to wherever it is rendered, but not the output that its
template wraps. The outputs to wrap are a stack of the context: all code that runs in a template's turn, down to the last
section that a section renders, finds the output that this template wraps, whichever template the code is from. -/

namespace Stencil

variable {σ : Type} {T : CompiledTemplate → Prop} {bodies : List Body}

namespace Code

/-- Running the code of a template comes to running some code: the code itself, or a section that such code renders. Sections
may register sections. -/
inductive Runs (host : Host σ) (own : Code σ) : Code σ → Prop
  | own : Runs host own own
  | section {code : Code σ} {depth : Nat} {name : String} {args : List Json} {scene : Scene σ} {e : Entry Action}
      {s : Ir.Section} (h : Runs host own code)
      (hcall : .called .renderSection (.string name :: args) scene ∈ code.events host) (hdepth : code.depth = depth + 1)
      (he : scene.context.visibleEntry? name = some e) (hs : e.action.section? = some s) :
      Runs host own (e.action.code s depth ⟨scene.context.hide e.frame, scene.host⟩)

/-- The code is from a known template, and it starts with these outputs to wrap, among sections of known templates, which can
nest as deep as it takes. -/
structure Grounded (T : CompiledTemplate → Prop) (bodies : List Body) (code : Code σ) : Prop where
  compiled : T code.compiled
  layered : code.start.context.Layered
  bodies : code.start.context.bodies = bodies
  known : ∀ a, code.start.context.Holds a → T a.compiled
  depth : ∀ g < code.start.context.depth, code.start.context.shows g = true → g < code.depth

variable {host : Host σ} {own code : Code σ}

/-- All along grounded code, the scene is one that has come from its start. -/
theorem Grounded.traced (h : code.Grounded T bodies) :
    Traced (code.machine host) (Placed code.compiled.template) (fun _ => Scene.From (fun _ => True) T code.start.context)
      ((code.machine host).output code.locals code.body) ((code.machine host).eventsAll code.locals code.body) := by
  have hhost : host.Ends (fun _ => True) (fun _ => True) := ⟨fun _ _ _ _ _ => trivial, fun _ _ _ _ _ _ _ => trivial⟩
  have hcovers : Halt.Covers T fun _ => True := ⟨fun _ => trivial, fun _ _ _ _ _ _ => trivial⟩
  refine Machine.output_traced (m := code.machine host) (fun _ => ⟨?_, ?_⟩) code.locals fun _ => ?_
  · exact renderSectionTo_from hcovers hhost code.depth h.layered h.depth
  · exact fun key modelType v => hhost.partial key modelType v _ h.layered
  · exact fun _ s index locals context hs hd => hs.define hd h.compiled

theorem Grounded.start_from (h : code.Grounded T bodies) :
    Scene.From (fun _ => True) T code.start.context code.start :=
  ⟨trivial, .refl h.layered, rfl, h.known⟩

theorem Grounded.at (h : code.Grounded T bodies) {b : Ir.Builtin} {args : List Json} {scene : Scene σ}
    (hcall : .called b args scene ∈ code.events host) : scene.From (fun _ => True) T code.start.context := by
  obtain ⟨done, post, heq⟩ := List.append_of_mem hcall
  exact h.traced.along [] code.start h.start_from done b args scene post heq

/-- What is grounded renders only sections that are. -/
theorem Runs.grounded (hown : own.Grounded T bodies) (h : Runs host own code) : code.Grounded T bodies := by
  induction h with
  | own => exact hown
  | @«section» code depth name args scene e s _ hcall hdepth he hs ih =>
    have hat := ih.at hcall
    obtain ⟨hframe, hshown, hcompiled⟩ := hat.visible he
    have hless := ih.depth e.frame hframe hshown
    refine ⟨hcompiled, hat.grows.layered.congr rfl rfl, hat.bodies.trans ih.bodies, hat.known, fun g hg hshows => ?_⟩
    have hbelow := (Context.shows_hide hg).mp hshows
    show g < depth
    omega

/-- A section that fails makes the code fail that comes to it, with the same failure. -/
theorem Runs.fails (hown : own.Grounded T bodies) (h : Runs host own code) {e : Halt} (herror : (code.run host).1 = .error e) :
    (own.run host).1 = .error e := by
  induction h with
  | own => exact herror
  | @«section» code depth name args scene entry s hruns hcall hdepth he hs ih =>
    refine ih ?_
    have hrender : (code.machine host).renderSection name =
        renderVisible name fun a => a.renderWith host (renderSectionTo host depth) := by
      show renderSectionTo host code.depth name = _
      rw [hdepth]
      rfl
    have hinner : (entry.action.renderWith host (renderSectionTo host depth) ⟨scene.context.hide entry.frame, scene.host⟩).1 =
        .error e := by
      unfold Action.renderWith
      rw [hs]
      exact herror
    have hfault : ((code.machine host).callBuiltin .renderSection (.string name :: args) scene).1 = .error (.nested e) := by
      rw [Machine.callBuiltin_renderSection, hrender, renderVisible_some _ he, hinner]
      rfl
    obtain ⟨e', hplaced, hfails⟩ := (hruns.grounded hown).traced.fails code.start _ _ _ _ hcall hfault
    cases hplaced
    exact hfails

end Code

/-! ### Turns -/

namespace Page

variable {p : Page} {t : Turn} {earlier : List Turn}

/-- The template has the turn, or had one before. -/
def HadTurn (turns : List Turn) (c : CompiledTemplate) : Prop := ∃ u ∈ turns, c = u.compiled

theorem turn_grounded {i : Nat} (h : p.turn? i = some (t, earlier)) :
    (t.code p).Grounded (HadTurn (t :: earlier)) t.start.context.bodies := by
  induction i generalizing t earlier with
  | zero =>
    cases h
    exact ⟨⟨_, List.mem_cons_self, rfl⟩, Context.Layered.start.pushFrame, rfl, fun a ⟨_, _, hmem, _⟩ => (nomatch hmem),
      fun g hg _ => hg⟩
  | succ i ih =>
    obtain ⟨u, us, hu, hnext, rfl⟩ := turn?_succ h
    have hground := ih hu
    have hafter := (@Code.Grounded.traced _ _ _ (u.host p) _ hground).kept [] u.start hground.start_from
    obtain ⟨body, _, -, -, -, -, -, hstart⟩ := Turn.next?_eq_some hnext
    rw [Turn.run_eq] at hstart
    refine ⟨⟨t, List.mem_cons_self, rfl⟩, ?_, rfl, fun a ha => ?_, fun g hg _ => hg⟩
    · show t.start.context.Layered
      rw [hstart]
      exact hafter.grows.layered.pushFrame.congr rfl rfl
    · have ha : t.start.context.Holds a := ha
      rw [hstart] at ha
      obtain ⟨v, hv, hcompiled⟩ := hafter.known a ha
      exact ⟨v, List.mem_cons_of_mem _ hv, hcompiled⟩

theorem turn?_of_mem {i : Nat} (h : p.turn? i = some (t, earlier)) {u : Turn} (hu : u ∈ t :: earlier) :
    ∃ j us, j ≤ i ∧ p.turn? j = some (u, us) := by
  induction i generalizing t earlier with
  | zero =>
    cases h
    cases List.mem_singleton.mp hu
    exact ⟨0, [], Nat.le_refl _, rfl⟩
  | succ i ih =>
    obtain ⟨v, vs, hv, -, rfl⟩ := turn?_succ h
    rcases List.mem_cons.mp hu with rfl | hu
    · exact ⟨i + 1, v :: vs, Nat.le_refl _, h⟩
    · obtain ⟨j, us, hj, hturn⟩ := ih hv hu
      exact ⟨j, us, Nat.le_succ_of_le hj, hturn⟩

/-- All code that runs in a turn, in whatever section, is from a template that has had a turn by then, and the output to
wrap in it is the one of the template whose turn it is: the output of the turn before. In the page's own turn there is
none, and code that calls for it makes the render fail. -/
theorem section_bodies (p : Page) {i : Nat} {t : Turn} {earlier : List Turn} (h : p.turn? i = some (t, earlier))
    {code : Code EngineState} (hcode : Code.Runs (t.host p) (t.code p) code) :
    (∃ j u us, j ≤ i ∧ p.turn? j = some (u, us) ∧ code.compiled = u.compiled) ∧
    ∀ args scene, .called .renderBody args scene ∈ code.events (t.host p) →
      match earlier with
      | [] => ∃ pos, p.result.1 = .error (.error (.execution ⟨p.compiled.template, pos, .bodyUnavailable⟩))
      | previous :: _ => ∃ output, (previous.run p).1 = .ok output ∧
          (code.machine (t.host p)).callBuiltin .renderBody args scene = (.ok (.markup output), scene) := by
  have hown := turn_grounded h
  have hground := hcode.grounded hown
  refine ⟨?_, fun args scene hcall => ?_⟩
  · obtain ⟨u, hu, hcompiled⟩ := hground.compiled
    obtain ⟨j, us, hj, hturn⟩ := turn?_of_mem h hu
    exact ⟨j, u, us, hj, hturn, hcompiled⟩
  · have hbodies : scene.context.bodies = t.start.context.bodies := (hground.at hcall).bodies.trans hground.bodies
    -- No turn before this one means that it is the page's own, and then the failure is that of the whole render.
    cases earlier with
    | nil =>
      obtain rfl : i = 0 := by
        cases i with
        | zero => rfl
        | succ i =>
          obtain ⟨_, _, -, -, heq⟩ := turn?_succ h
          cases heq
      cases h
      have hreply : ((code.machine (p.first.host p)).callBuiltin .renderBody args scene).1 =
          .error (.cause .bodyUnavailable) := by
        rw [Machine.callBuiltin_renderBody, hbodies]
        rfl
      -- The failed call is the end of the code, and each code around it ends with the same failure.
      obtain ⟨e, hplaced, hfails⟩ := hground.traced.fails code.start _ _ _ _ hcall hreply
      obtain ⟨u, hu, hcompiled⟩ := hground.compiled
      cases List.mem_singleton.mp hu
      cases hplaced with
      | @cause _ pos =>
        rw [hcompiled] at hfails
        have hrun := hcode.fails hown hfails
        rw [← Turn.run_eq] at hrun
        exact ⟨pos, (Turn.result_error hrun : (p.first.result p).1 = _)⟩
    | cons previous earlier =>
      obtain ⟨output, hrun, hstart⟩ := turn_body h
      refine ⟨output, hrun, ?_⟩
      rw [Machine.callBuiltin_renderBody, hbodies, hstart]

/-- Renders the output to wrap. -/
def wrapped : Ir.Stmt := .emit (.call (.builtin .renderBody) []) none

/-- A page whose section renders an output to wrap, and a layout that renders its own and then the section. -/
def wrappedTwice : Page := { forwarded with
  compiled := forwarding "index" (some "_Inner") [⟨"Scripts", [wrapped]⟩] [.defineSection 0, .write "<page>"]
  state := { cache := { entries := [⟨.of "_Inner" .dynamic, 0, forwarding "_Inner" none [] [wrapped, .write "|", scripts]⟩] } } }

/-- The section is the page's, which has nothing to wrap, and it finds the output that the layout wraps, the page's own. -/
theorem section_bodies_wrappedTwice : ∃ layout code scene, wrappedTwice.turn? 1 = some (layout, [wrappedTwice.first]) ∧
    Code.Runs (layout.host wrappedTwice) (layout.code wrappedTwice) code ∧
    code.compiled = wrappedTwice.compiled ∧ .called .renderBody [] scene ∈ code.events (layout.host wrappedTwice) ∧
    (code.machine (layout.host wrappedTwice)).callBuiltin .renderBody [] scene = (.ok (.markup "<page>"), scene) ∧
    wrappedTwice.result.1 = .ok "<page>|<page>" := by
  have hrun : (wrappedTwice.first.run wrappedTwice).1 = .ok "<page>" := by decide +kernel
  obtain ⟨layout, wrapping, rendering, e, depth, hturn, hevents, hdepth, he, haction, hsection⟩ :
      ∃ layout wrapping rendering e depth, wrappedTwice.turn? 1 = some (layout, [wrappedTwice.first]) ∧
        layout.events wrappedTwice = [.called .renderBody [] wrapping, .called .renderSection [.string "Scripts"] rendering] ∧
        (layout.code wrappedTwice).depth = depth + 1 ∧ rendering.context.visibleEntry? "Scripts" = some e ∧
        e.action.compiled = wrappedTwice.compiled ∧ e.action.section? = some ⟨"Scripts", [wrapped]⟩ :=
    ⟨_, _, _, _, _, rfl, rfl, rfl, rfl, rfl, rfl⟩
  have hrender : .called .renderSection [.string "Scripts"] rendering ∈ layout.events wrappedTwice := by
    rw [hevents]
    simp
  have hcode : Code.Runs (layout.host wrappedTwice) (layout.code wrappedTwice) _ :=
    .section .own hrender hdepth he hsection
  have hcall : .called .renderBody [] ⟨rendering.context.hide e.frame, rendering.host⟩ ∈
      (e.action.code ⟨"Scripts", [wrapped]⟩ depth ⟨rendering.context.hide e.frame, rendering.host⟩).events
        (layout.host wrappedTwice) := List.mem_append_left _ List.mem_cons_self
  obtain ⟨-, hbodies⟩ := section_bodies wrappedTwice hturn hcode
  obtain ⟨output, houtput, hreply⟩ := hbodies [] _ hcall
  rw [hrun] at houtput
  cases houtput
  exact ⟨layout, _, _, hturn, hcode, haction, hcall, hreply, by decide +kernel⟩

end Page

end Stencil
