import Stencil.Proofs.Render.Defining

/-! Sections that render sections.

While a template's body runs, it can render sections, and these can render others in turn. Each of them was registered by a
template before the one whose section renders it, so that they nest no deeper than there are templates. As long as sections
register nothing themselves, which one is rendered follows from what the bodies have registered, and from nothing else. -/

namespace Stencil

variable {σ : Type}

/-- Code of a template that runs: its body, or one of its sections. -/
structure Code (σ : Type) where
  compiled : CompiledTemplate
  model : Json
  locals : Locals
  body : List Ir.Stmt
  /-- How deep sections can nest in the code. -/
  depth : Nat
  /-- The scene in which the code starts. -/
  start : Scene σ

/-- The code of a section. -/
def Action.code (a : Action) (s : Ir.Section) (depth : Nat) (start : Scene σ) : Code σ :=
  ⟨a.compiled, a.model, a.locals, s.body, depth, start⟩

namespace Code

/-- What the code runs on. -/
def machine (host : Host σ) (c : Code σ) : Machine σ := ⟨c.compiled, c.model, host, renderSectionTo host c.depth⟩

/-- The events of the code. -/
def events (host : Host σ) (c : Code σ) : List (Event σ) := (c.machine host).eventsAll c.locals c.body c.start

/-- The output of the code, and the scene that it leaves. -/
def run (host : Host σ) (c : Code σ) : Except Halt String × Scene σ := (c.machine host).output c.locals c.body c.start

/-- What a call that renders the section of a name gives, if the code sees a section with the name, with what the templates
before that section's own have registered: the section's output, or else nothing unless the section is required. -/
def sectionReply (host : Host σ) (c : Code σ) (name : String) (args : List Json) (scene : Scene σ) :
    Option (Action × List (List Action)) → Except Fault Evaluated × Scene σ
  | none =>
    if ((args.head?).map (·.truthy)).getD false then (.error (.cause (.requiredSectionMissing name)), scene)
    else (.ok (.markup ""), scene)
  | some (a, before) =>
    let (result, after) := a.renderWith host (renderSectionTo host (c.depth - 1))
      ⟨scene.context.hide (before.length + 1), scene.host⟩
    ((result.mapError .nested).map .markup, ⟨scene.context, after.host⟩)

/-- Running the code of a template, after the templates before it have registered sections, comes to running some code. It
comes with what that code sees after some of its events: the template itself sees what it has registered so far and what
is registered before it; a section that is rendered sees what the templates before its own have registered. -/
inductive Comes (host : Host σ) (own : Code σ) (earlier : List (List Action)) :
    Code σ → (List (Event σ) → List (List Action)) → Prop
  | own : Comes host own earlier own fun done => registrations done :: earlier
  | section {code : Code σ} {sees : List (Event σ) → List (List Action)} {done post : List (Event σ)} {name : String}
      {args : List Json} {scene : Scene σ} {a : Action} {before : List (List Action)} {s : Ir.Section}
      (h : Comes host own earlier code sees)
      (hcall : code.events host = done ++ .called .renderSection (.string name :: args) scene :: post)
      (hlatest : latest? name (sees done) = some (a, before)) (hs : a.section? = some s) :
      Comes host own earlier (a.code s (code.depth - 1) ⟨scene.context.hide (before.length + 1), scene.host⟩) fun _ => before

/-- A template's code starts above the templates before it, with a frame of its own and only sections that register
nothing. -/
structure Above (own : Code σ) (earlier : List (List Action)) : Prop where
  sees : own.start.context.Sees [] ([] :: earlier)
  flat : own.start.context.Flat
  module : own.compiled.module.Flat
  depth : own.depth = own.start.context.depth

variable {host : Host σ} {own code : Code σ} {earlier : List (List Action)}

/-- All along a template's code, its context holds what has been registered so far. -/
theorem Above.traced (h : own.Above earlier) :
    Traced (own.machine host) (Placed own.compiled.template)
      (fun log s => s.context.Sees [] (log :: earlier) ∧ s.context.Flat)
      ((own.machine host).output own.locals own.body) ((own.machine host).eventsAll own.locals own.body) := by
  refine Machine.output_traced (m := own.machine host) (fun log => ?_) own.locals fun _ => ?_
  · exact Machine.surrounded_of_flat (m := own.machine host) (I := fun c => c.Sees [] (log :: earlier) ∧ c.Flat) rfl
      fun _ hc => hc.2
  · rintro log s index locals context ⟨hsees, hflat⟩ hd
    refine ⟨hsees.define hd, fun name e he => ?_⟩
    rw [Context.entries_define hsees.ordered hd] at he
    rcases List.mem_append.mp he with he | he
    · split at he
      · cases List.mem_singleton.mp he
        exact Action.flat_of_module h.module
      · cases he
    · exact hflat name e he

/-- The context at a call shows what the code sees, and sections can nest deep enough in it. -/
structure Sees (code : Code σ) (seen : List (List Action)) (scene : Scene σ) : Prop where
  sees : ∃ newer, scene.context.Sees newer seen
  flat : scene.context.Flat
  depth : seen.length + 1 ≤ code.depth

theorem Sees.flat_latest {seen before : List (List Action)} {scene : Scene σ} (h : code.Sees seen scene) {name : String}
    {a : Action} (hl : latest? name seen = some (a, before)) : a.Flat := by
  obtain ⟨newer, hsees⟩ := h.sees
  have hentry := hsees.visibleEntry? name
  rw [hl] at hentry
  exact h.flat name _ (List.mem_of_find?_eq_some hentry)

theorem Comes.sees {sees : List (Event σ) → List (List Action)} (hown : own.Above earlier)
    (h : Comes host own earlier code sees) {done post : List (Event σ)} {b : Ir.Builtin} {args : List Json} {scene : Scene σ}
    (hcall : code.events host = done ++ .called b args scene :: post) : code.Sees (sees done) scene := by
  induction h generalizing done post b args scene with
  | own =>
    -- In the template's own code, what the call sees has been registered before it.
    have halong := hown.traced.along [] own.start ⟨hown.sees, hown.flat⟩ done b args scene post hcall
    rw [List.append_nil] at halong
    refine ⟨⟨[], halong.1⟩, halong.2, ?_⟩
    rw [hown.depth, hown.sees.depth]
    exact Nat.le_refl _
  | @«section» code sees done' post' name args' scene' a before s hcomes hcall' hlatest hs ih =>
    have hat := ih hcall'
    obtain ⟨newer, hsees⟩ := hat.sees
    obtain ⟨newer', hhidden⟩ := hsees.hide hlatest
    have hflat : scene'.context.hide (before.length + 1) |>.Flat := hat.flat
    let inner := a.code s (code.depth - 1) ⟨scene'.context.hide (before.length + 1), scene'.host⟩
    -- The section registers nothing, so its context stays as it is.
    have htraced : Traced (inner.machine host) (Placed a.compiled.template)
        (fun _ s => s.context = scene'.context.hide (before.length + 1))
        ((inner.machine host).output a.locals s.body) ((inner.machine host).eventsAll a.locals s.body) := by
      refine Machine.output_traced (m := inner.machine host) (fun _ => ?_) a.locals fun hr => ?_
      · exact Machine.surrounded_of_flat (m := inner.machine host) (I := (· = _)) rfl fun c hc => hc ▸ hflat
      · exact absurd hr (Bool.eq_false_iff.mp (hat.flat_latest hlatest s hs))
    have hcontext := htraced.along [] inner.start rfl done b args scene post hcall
    refine ⟨⟨newer', hcontext ▸ hhidden⟩, hcontext ▸ hflat, ?_⟩
    obtain ⟨-, mid, as, hseen, -⟩ := latest?_eq_some hlatest
    have hlength := congrArg List.length hseen
    rw [List.length_append, List.length_cons] at hlength
    have hdepth := hat.depth
    show before.length + 1 ≤ code.depth - 1
    omega

end Code

theorem Machine.callBuiltin_renderSection (m : Machine σ) (name : String) (args : List Json) (scene : Scene σ) :
    m.callBuiltin .renderSection (.string name :: args) scene = match m.renderSection name scene with
      | (.error h, s) => (.error (.nested h), s)
      | (.ok (some text), s) => (.ok (.markup text), s)
      | (.ok none, s) =>
        if ((args.head?).map (·.truthy)).getD false then (.error (.cause (.requiredSectionMissing name)), s)
        else (.ok (.markup ""), s) := by
  have hlift : (m.renderSection name).lift scene =
      ((m.renderSection name scene).1.mapError .nested, (m.renderSection name scene).2) := rfl
  show ((m.renderSection name).lift >>= _ : Evaluation σ Evaluated) scene = _
  rw [bind_run, hlift]
  rcases m.renderSection name scene with ⟨_ | _ | text, s⟩
  · rfl
  · dsimp only [Except.mapError]
    rw [List.tail_cons]
    split <;> rfl
  · rfl

/-- Wherever the code of a template comes to render the section of a name, it renders the latest section with the name
among those that the code sees there. -/
theorem Code.Comes.renders {host : Host σ} {own code : Code σ} {earlier : List (List Action)}
    {sees : List (Event σ) → List (List Action)} (hown : own.Above earlier) (h : Code.Comes host own earlier code sees)
    {done post : List (Event σ)} {name : String} {args : List Json} {scene : Scene σ}
    (hcall : code.events host = done ++ .called .renderSection (.string name :: args) scene :: post) :
    (code.machine host).callBuiltin .renderSection (.string name :: args) scene =
      code.sectionReply host name args scene (latest? name (sees done)) := by
  have hat := h.sees hown hcall
  obtain ⟨newer, hsees⟩ := hat.sees
  have hentry := hsees.visibleEntry? name
  have hdepth : code.depth = code.depth - 1 + 1 := by
    have := hat.depth
    omega
  have hrender : (code.machine host).renderSection name =
      renderVisible name fun a => a.renderWith host (renderSectionTo host (code.depth - 1)) := by
    show renderSectionTo host code.depth name = _
    rw [hdepth]
    rfl
  rw [Machine.callBuiltin_renderSection, hrender]
  rcases hlatest : latest? name (sees done) with _ | ⟨a, before⟩ <;> rw [hlatest] at hentry
  · rw [renderVisible_none _ hentry]
    rfl
  · have hflat : (scene.context.hide (before.length + 1)).Flat := hat.flat
    -- The section's code leaves the context as it is, so the ceilings are taken off where they were put.
    have hkeeps : Keeps (fun s => s.context = scene.context.hide (before.length + 1)) (fun _ => True) (fun _ => True)
        (a.renderWith host (renderSectionTo host (code.depth - 1))) :=
      Action.renderWith_context (hat.flat_latest hlatest) (renderSectionTo_context hflat (code.depth - 1))
    have hcontext := hkeeps.kept ⟨scene.context.hide (before.length + 1), scene.host⟩ rfl
    rw [renderVisible_some _ hentry, sectionReply]
    dsimp only at hcontext ⊢
    rw [hcontext, Context.restoreCeilings_hide]
    rcases a.renderWith host (renderSectionTo host (code.depth - 1)) ⟨scene.context.hide (before.length + 1), scene.host⟩ with
      ⟨_ | _, _⟩ <;> rfl

end Stencil
