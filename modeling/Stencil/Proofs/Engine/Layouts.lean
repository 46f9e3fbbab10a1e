import Stencil.Proofs.Engine.Turns
import Stencil.Proofs.Render.Sections

/-! The protocol of layouts and sections.

In its turn, each template of a page finds the output of the one before it to wrap, and the sections that those before it
have registered; the page itself finds neither. It does not matter how the templates come to look for them: in what order,
in a function, in a loop, or in a section. -/

namespace Stencil

variable {σ : Type}

/-! ### Calls -/

theorem Machine.callBuiltin_renderBody (m : Machine σ) (args : List Json) (scene : Scene σ) :
    m.callBuiltin .renderBody args scene = match scene.context.bodies.head? with
      | none => (.error (.cause .bodyUnavailable), scene)
      | some body => (.ok (.markup body.content), scene) := by
  show (need scene.context.bodies.head? .bodyUnavailable >>= _ : Evaluation σ Evaluated) scene = _
  cases scene.context.bodies.head? <;> rfl

/-- Emitting the output to wrap writes it as it is, whatever the encoding. -/
theorem Machine.output_renderBody (m : Machine σ) (pos : Option SourcePos) {body : Body} {scene : Scene σ}
    (h : scene.context.bodies.head? = some body) :
    m.output [] [.emit (.call (.builtin .renderBody) []) pos] scene = (.ok body.content, scene) := by
  have heval : m.evalAt pos [] (.call (.builtin .renderBody) []) scene = (.ok (.markup body.content), scene) := by
    have hcall : m.evalTo maxCallDepth [] (.call (.builtin .renderBody) []) scene = m.callBuiltin .renderBody [] scene := rfl
    rw [evalAt, Evaluation.at, adapt_run, hcall, callBuiltin_renderBody, h]
    rfl
  rw [output_emit, heval]
  show (Except.ok (Piece.renderAll m.compiled.program.encoding [.markup body.content]), scene) = _
  cases m.compiled.program.encoding <;> simp [Piece.renderAll, Piece.render, String.join]

/-! ### Turns -/

namespace Turn

variable {p : Page} {t : Turn}

/-- The code of the template's body. -/
def code (p : Page) (t : Turn) : Code EngineState :=
  ⟨t.compiled, p.model, [], t.compiled.module.body, t.start.context.depth, t.start⟩

/-- The events of the template's body. -/
def events (p : Page) (t : Turn) : List (Event EngineState) := (t.code p).events (t.host p)

theorem run_eq (p : Page) (t : Turn) : t.run p = (t.code p).run (t.host p) := CompiledTemplate.execute_run _ _ _ _

/-- All along a template's body, the outputs to wrap are those at its start. -/
theorem bodies_traced (p : Page) (t : Turn) :
    Traced ((t.code p).machine (t.host p)) (Placed t.compiled.template) (fun _ s => s.context.bodies = t.start.context.bodies)
      (((t.code p).machine (t.host p)).output [] t.compiled.module.body)
      (((t.code p).machine (t.host p)).eventsAll [] t.compiled.module.body) := by
  have hhost : (t.host p).Keeps fun _ => True := by
    refine Engine.host_keeps (fun _ _ _ _ => trivial) (fun render hrender => ?_) t.chain
    unfold Engine.further at hrender
    split at hrender
    · cases hrender
    · cases hrender
      exact Engine.renderer_within (fun _ _ _ _ => trivial) _
  refine Machine.output_traced (m := (t.code p).machine (t.host p)) (fun _ => ⟨fun name => ?_, fun _ _ _ => ?_⟩) [] fun _ => ?_
  · have hwithin := @renderSectionTo_within _ _ t.start.context.bodies _ hhost (t.code p).depth name
    exact ⟨fun s hs => (hwithin.kept s ⟨trivial, hs⟩).bodies, fun _ _ _ _ => trivial, fun _ _ _ _ => trivial⟩
  · exact ⟨fun _ hs => hs, fun _ _ _ _ => trivial, fun _ _ _ _ => trivial⟩
  · exact fun _ _ _ _ _ hs hd => (Context.define_bodies hd).trans hs

theorem bodies_at {b : Ir.Builtin} {args : List Json} {scene : Scene EngineState}
    (h : .called b args scene ∈ t.events p) : scene.context.bodies = t.start.context.bodies := by
  obtain ⟨done, post, heq⟩ := List.append_of_mem h
  exact (bodies_traced p t).along [] t.start rfl done b args scene post heq

/-- A body that looks for an output to wrap where there is none fails. -/
theorem run_no_body (hstart : t.start.context.bodies = []) {args : List Json} {scene : Scene EngineState}
    (h : .called .renderBody args scene ∈ t.events p) :
    ∃ pos, (t.run p).1 = .error (.error (.execution ⟨t.compiled.template, pos, .bodyUnavailable⟩)) := by
  have hcall : (((t.code p).machine (t.host p)).callBuiltin .renderBody args scene).1 = .error (.cause .bodyUnavailable) := by
    rw [Machine.callBuiltin_renderBody, bodies_at h, hstart]
    rfl
  obtain ⟨err, hplaced, hfails⟩ := (bodies_traced p t).fails t.start .renderBody args scene _ h hcall
  cases hplaced with
  | @cause _ pos => exact ⟨pos, (congrArg Prod.fst (run_eq p t)).trans hfails⟩

end Turn

namespace Page

variable {p : Page} {t : Turn} {earlier : List Turn}

/-- What the templates before a turn have registered. -/
def registered (p : Page) (earlier : List Turn) : List (List Action) := earlier.map fun u => registrations (u.events p)

/-- If no section registers sections, each template starts above those before it. -/
theorem turn_above {i : Nat} (h : p.turn? i = some (t, earlier)) (hflat : ∀ u ∈ t :: earlier, u.compiled.module.Flat) :
    (t.code p).Above (p.registered earlier) := by
  induction i generalizing t earlier with
  | zero =>
    cases h
    exact ⟨Context.Sees.start.pushFrame, fun _ _ he => (nomatch he), hflat _ List.mem_cons_self, rfl⟩
  | succ i ih =>
    obtain ⟨u, us, hu, hnext, rfl⟩ := turn?_succ h
    have habove := ih hu fun v hv => hflat v (List.mem_cons_of_mem _ hv)
    have hafter := (@Code.Above.traced _ (u.host p) _ _ habove).kept [] u.start ⟨habove.sees, habove.flat⟩
    rw [List.append_nil] at hafter
    obtain ⟨body, _, -, -, -, -, -, hstart⟩ := Turn.next?_eq_some hnext
    rw [Turn.run_eq] at hstart
    refine ⟨?_, ?_, hflat _ List.mem_cons_self, rfl⟩
    · show t.start.context.Sees _ _
      rw [hstart]
      exact hafter.1.pushFrame.pushBody _
    · show t.start.context.Flat
      rw [hstart]
      exact hafter.2

/-- A turn after the first finds the output of the one before it to wrap. -/
theorem turn_body {i : Nat} {previous : Turn} (h : p.turn? i = some (t, previous :: earlier)) : ∃ output,
    (previous.run p).1 = .ok output ∧ t.start.context.bodies.head? = some ⟨previous.compiled.template, output⟩ := by
  cases i with
  | zero => cases h
  | succ i =>
    obtain ⟨u, us, -, hnext, heq⟩ := turn?_succ h
    cases heq
    obtain ⟨output, _, hrun, -, -, -, -, hstart⟩ := Turn.next?_eq_some hnext
    exact ⟨output, hrun, by rw [hstart]; rfl⟩

/-- The protocol of layouts and sections, for every page, whatever the number of its layouts.

The render misses no output to wrap. If it has an output, each turn up to a last one has run its body once, starting from
what the one before it has left, for a layout that is entered once, and the output is the last one's. In each turn, where
the body calls for the output to wrap, that is the output of the turn before, as it is; the page finds none there, and its
render fails. Unless sections register sections, where the code of a turn renders the section of a name, it renders the
latest one with the name: the body, of those that are registered so far; a section, of those of the templates before its
own. -/
theorem layout_protocol (p : Page) :
    p.result.1 ≠ .error .noBody ∧
    (∀ text, p.result.1 = .ok text → ∃ n last earlier, p.turn? n = some (last, earlier) ∧
      (∀ i, (p.turn? i).isSome ↔ i ≤ n) ∧
      (∃ layouts, last.chain.keys = p.chain.keys ++ layouts ∧ layouts.length = n ∧ layouts.Nodup ∧
        p.chain.keys.Disjoint layouts) ∧
      Engine.layoutToFollow last.compiled last.role = none ∧
      last.run p = (.ok text, ⟨(last.run p).2.context, p.result.2⟩)) ∧
    ∀ i t earlier, p.turn? i = some (t, earlier) →
      (∀ args scene, .called .renderBody args scene ∈ t.events p →
        match earlier with
        | [] => ∃ pos, p.result.1 = .error (.error (.execution ⟨p.compiled.template, pos, .bodyUnavailable⟩))
        | previous :: _ => ∃ output, (previous.run p).1 = .ok output ∧
          ((t.code p).machine (t.host p)).callBuiltin .renderBody args scene = (.ok (.markup output), scene) ∧
          ∀ pos, ((t.code p).machine (t.host p)).output [] [.emit (.call (.builtin .renderBody) []) pos] scene =
            (.ok output, scene)) ∧
      ((∀ u ∈ t :: earlier, u.compiled.module.Flat) →
        ∀ code sees, Code.Comes (t.host p) (t.code p) (p.registered earlier) code sees →
        ∀ done name args scene post,
          code.events (t.host p) = done ++ .called .renderSection (.string name :: args) scene :: post →
          (code.machine (t.host p)).callBuiltin .renderSection (.string name :: args) scene =
            code.sectionReply (t.host p) name args scene (latest? name (sees done))) := by
  refine ⟨?_, fun text h => ?_, fun i t earlier hturn => ⟨fun args scene hcall => ?_, fun hflat code sees hcomes => ?_⟩⟩
  · exact (@Engine.renderPage_keeps p.engine (fun _ => True) (fun _ _ _ _ => trivial) p.compiled p.modelType p.model p.chain
      p.state trivial).2
  · obtain ⟨n, last, earlier, hturn, hturns, hlayout, hrun⟩ := last_turn h
    exact ⟨n, last, earlier, hturn, hturns, layouts_turn hturn, hlayout, hrun⟩
  · cases earlier with
    | nil =>
      -- Only the page's own turn has no turn before it.
      obtain rfl : i = 0 := by
        cases i with
        | zero => rfl
        | succ i =>
          obtain ⟨_, _, -, -, heq⟩ := turn?_succ hturn
          cases heq
      cases hturn
      obtain ⟨pos, hrun⟩ := Turn.run_no_body rfl hcall
      exact ⟨pos, (Turn.result_error hrun : (p.first.result p).1 = _)⟩
    | cons previous earlier =>
      obtain ⟨output, hrun, hstart⟩ := turn_body hturn
      rw [← Turn.bodies_at hcall] at hstart
      refine ⟨output, hrun, ?_, fun pos => Machine.output_renderBody _ pos hstart⟩
      rw [Machine.callBuiltin_renderBody, hstart]
  · intro done name args scene post hcall
    exact hcomes.renders (turn_above hturn hflat) hcall

/-- A template with sections for any model. -/
def forwarding (key : String) (layout : Option String) (sections : List Ir.Section) (body : List Ir.Stmt) : CompiledTemplate where
  template := key
  className := ⟨"Template", isName_template⟩
  modelType := .dynamic
  program := ⟨⟨Ir.formatVersion, "", "Template", "html", "dynamic", [], layout, false, [], [], sections, body⟩, [], .html⟩

/-- Renders the section with scripts. -/
def scripts : Ir.Stmt := .emit (.call (.builtin .renderSection) [.literal (.string "Scripts")]) none

/-- A page with a section, and a layout that hands the section on under the same name. -/
def forwarded : Page where
  engine := { sources := ({} : MemorySource).provider }
  compiled := forwarding "index" (some "_Inner") [⟨"Scripts", [.write "<a>"]⟩] [.defineSection 0, .write "<page>"]
  modelType := .dynamic
  model := .null
  chain := ⟨["index"], 16⟩
  state := { cache := { entries := [⟨.of "_Inner" .dynamic, 0, forwarding "_Inner" none
    [⟨"Scripts", [scripts, .write "<b>"]⟩]
    [.defineSection 0, .emit (.call (.builtin .renderBody) []) none, .write "|", scripts]⟩] } }

/-- The layout finds the page's output to wrap as it is, and renders its own section, which renders the page's. -/
theorem layout_protocol_forwarded : ∃ layout a wrapping rendering, forwarded.turn? 1 = some (layout, [forwarded.first]) ∧
    (∀ u ∈ [layout, forwarded.first], u.compiled.module.Flat) ∧ layout.events forwarded =
      [.registered a, .called .renderBody [] wrapping, .called .renderSection [.string "Scripts"] rendering] ∧
    ((layout.code forwarded).machine (layout.host forwarded)).callBuiltin .renderBody [] wrapping =
      (.ok (.markup "<page>"), wrapping) ∧
    ((layout.code forwarded).machine (layout.host forwarded)).callBuiltin .renderSection [.string "Scripts"] rendering =
      (layout.code forwarded).sectionReply (layout.host forwarded) "Scripts" [] rendering
        (some (a, forwarded.registered [forwarded.first])) ∧
    forwarded.result.1 = .ok "<page>|<a><b>" := by
  have hrun : (forwarded.first.run forwarded).1 = .ok "<page>" := by decide +kernel
  obtain ⟨layout, a, wrapping, rendering, hturn, hflat, hevents, hname⟩ : ∃ layout a wrapping rendering,
      forwarded.turn? 1 = some (layout, [forwarded.first]) ∧ (∀ u ∈ [layout, forwarded.first], u.compiled.module.Flat) ∧
      layout.events forwarded =
        [.registered a, .called .renderBody [] wrapping, .called .renderSection [.string "Scripts"] rendering] ∧
      a.name = "Scripts" := by
    refine ⟨_, _, _, _, rfl, ?_, rfl, by decide +kernel⟩
    intro u hu s hs
    rcases List.mem_pair.mp hu with rfl | rfl <;> cases List.mem_singleton.mp hs <;> rfl
  obtain ⟨-, -, hturns⟩ := layout_protocol forwarded
  obtain ⟨hbody, hsections⟩ := hturns 1 layout [forwarded.first] hturn
  refine ⟨layout, a, wrapping, rendering, hturn, hflat, hevents, ?_, ?_, by decide +kernel⟩
  · obtain ⟨output, houtput, hreply, -⟩ := hbody [] wrapping (by rw [hevents]; simp)
    rw [hrun] at houtput
    cases houtput
    exact hreply
  · have hreply := hsections hflat _ _ .own [.registered a, .called .renderBody [] wrapping] "Scripts" [] rendering [] hevents
    have hlatest : latest? "Scripts" ([a] :: forwarded.registered [forwarded.first]) =
        some (a, forwarded.registered [forwarded.first]) := by
      rw [latest?, List.find?_cons_of_pos (by simp [hname])]
      rfl
    rw [hreply]
    exact congrArg _ hlatest

end Page

end Stencil
