import Stencil.Proofs.Render.Frames

/-! Leaving a nested render.

Whatever is done in a nested render, and wherever it breaks off, the context is afterwards as it was before, as long as no
output to wrap is taken off that was there before. -/

namespace Stencil

variable {α : Type}

namespace Step

/-- How much of some steps is done when their run ends: all of it, or what is before a point at which the run breaks off.
What is nested there breaks off as well, and is left. -/
inductive Ends : List (Step α) → List (Step α) → Prop
  | whole {steps : List (Step α)} : Ends steps steps
  | here {steps : List (Step α)} : Ends steps []
  | later {s : Step α} {steps done : List (Step α)} (h : Ends steps done) : Ends (s :: steps) (s :: done)
  | nested {inner done steps : List (Step α)} {breaksOff : Bool} (h : Ends inner done) :
      Ends (.nested inner breaksOff :: steps) [.nested done true]
  | render {name : String} {inner done steps : List (Step α)} {breaksOff : Bool} (h : Ends inner done) :
      Ends (.render name inner breaksOff :: steps) [.render name done true]

variable [DecidableEq α]

/-- A run of steps passes through a context, between two steps or within what is nested, while some sections are being
rendered, the innermost first. -/
inductive Passes : Context α → List (Step α) → List (Entry α) → Context α → Prop
  | here {c : Context α} {steps : List (Step α)} : Passes c steps [] c
  | later {c p : Context α} {s : Step α} {steps : List (Step α)} {rendering : List (Entry α)}
      (h : Passes (s.run c).2 steps rendering p) : Passes c (s :: steps) rendering p
  | nested {c p : Context α} {inner steps : List (Step α)} {breaksOff : Bool} {rendering : List (Entry α)}
      (h : Passes c.pushFrame inner rendering p) : Passes c (.nested inner breaksOff :: steps) rendering p
  | render {c p : Context α} {name : String} {e : Entry α} {inner steps : List (Step α)} {breaksOff : Bool}
      {rendering : List (Entry α)} (he : c.visibleEntry? name = some e) (h : Passes (c.hide e.frame) inner rendering p) :
      Passes c (.render name inner breaksOff :: steps) (rendering ++ [e]) p

variable {c : Context α}

theorem Passes.append {p : Context α} {steps : List (Step α)} {rendering : List (Entry α)} (h : Passes c steps rendering p)
    (more : List (Step α)) : Passes c (steps ++ more) rendering p := by
  induction h with
  | here => exact .here
  | later _ ih => exact .later ih
  | nested h _ => exact .nested h
  | render he h _ => exact .render he h

/-- Within what a section renders, the section is the outermost one. -/
theorem Passes.of_render {p : Context α} {name : String} {e : Entry α} {steps : List (Step α)} {breaksOff : Bool}
    {rendering : List (Entry α)} (hp : Passes c [.render name steps breaksOff] (rendering ++ [e]) p) :
    c.visibleEntry? name = some e ∧ Passes (c.hide e.frame) steps rendering p := by
  generalize hall : rendering ++ [e] = all at hp
  rcases hp with _ | hp | _ | ⟨he, hp⟩
  · simp at hall
  · cases hp
    simp at hall
  · obtain ⟨rfl, heq⟩ := List.append_inj' hall rfl
    cases heq
    exact ⟨he, hp⟩

theorem run_define_ok {name : String} {a : α} {d : Context α} (h : c.define name a = .ok d) : ((define name a).run c).2 = d := by
  rw [run, h]

theorem run_define_error {name : String} {a : α} {cause : ExecutionCause} (h : c.define name a = .error cause) :
    ((define name a).run c).2 = c := by
  rw [run, h]

theorem run_pop (c : Context α) : (pop.run c).2 = { c with bodies := c.bodies.tail } := by
  rw [run, Context.popBody?]
  cases h : c.bodies with
  | nil =>
    dsimp only
    rw [List.tail_nil, ← h]
  | cons b rest => rfl

theorem run_nested (c : Context α) (inner : List (Step α)) (breaksOff : Bool) :
    ((nested inner breaksOff).run c).2 = Context.restore c (runAll c.pushFrame inner).2 := rfl

theorem run_render_none {name : String} (h : c.visibleEntry? name = none) (inner : List (Step α)) (breaksOff : Bool) :
    ((render name inner breaksOff).run c).2 = c := by
  rw [run, Context.renderSection, h]

theorem run_render_some {name : String} {e : Entry α} (h : c.visibleEntry? name = some e) (inner : List (Step α))
    (breaksOff : Bool) :
    ((render name inner breaksOff).run c).2 = Context.restoreCeilings c (runAll (c.hide e.frame) inner).2 := by
  rw [run, Context.renderSection, h]

mutual

/-- An operation stays in the frame on top. -/
theorem run_grows : (s : Step α) → ∀ c : Context α, c.Layered → c.Grows (s.run c).2
  | .define name a, c, hc => by
    cases hd : c.define name a with
    | ok d =>
      rw [run_define_ok hd]
      exact .define hc hd
    | error _ =>
      rw [run_define_error hd]
      exact .refl hc
  | .lookup _, _, hc | .body, _, hc | .depth, _, hc => .refl hc
  | .push b, c, hc => .of_bodies hc (b :: c.bodies)
  | .pop, c, hc => by
    rw [run_pop]
    exact .of_bodies hc _
  | .nested inner _, c, hc => (runAll_grows inner c.pushFrame hc.pushFrame).restore hc
  | .render name inner breaksOff, c, hc => by
    cases he : c.visibleEntry? name with
    | none =>
      rw [run_render_none he]
      exact .refl hc
    | some e =>
      rw [run_render_some he]
      exact (runAll_grows inner (c.hide e.frame) (hc.congr rfl rfl)).restoreCeilings

theorem runAll_grows : (steps : List (Step α)) → ∀ c : Context α, c.Layered → c.Grows (runAll c steps).2
  | [], _, hc => .refl hc
  | s :: steps, c, hc =>
    have hs := run_grows s c hc
    hs.trans (runAll_grows steps (s.run c).2 hs.layered)

end

/-! ### Outputs to wrap -/

theorem suffix_tail {bs xs : List Body} (h : bs <:+ xs) (hlen : bs.length ≤ xs.tail.length) : bs <:+ xs.tail :=
  List.suffix_of_suffix_length_le h (List.tail_suffix xs) hlen

mutual

/-- An operation keeps the lowest outputs, if there are never fewer. -/
theorem run_bodies {bs : List Body} : (s : Step α) → ∀ c : Context α, c.Layered → bs <:+ c.bodies →
    (∀ rendering p, Passes c [s] rendering p → bs.length ≤ p.bodies.length) → bs <:+ (s.run c).2.bodies
  | .define name a, c, _, hbs, _ => by
    cases hd : c.define name a with
    | ok d =>
      rw [run_define_ok hd, Context.define_eq hd]
      exact hbs
    | error _ =>
      rw [run_define_error hd]
      exact hbs
  | .lookup _, _, _, hbs, _ | .body, _, _, hbs, _ | .depth, _, _, hbs, _ => hbs
  | .push b, _, _, hbs, _ => hbs.trans (List.suffix_cons b _)
  | .pop, c, _, hbs, hkept => by
    -- The body that is taken off is none of `bs`, for these are kept behind the step.
    have hlen := hkept [] _ (.later .here)
    rw [run_pop] at hlen ⊢
    exact suffix_tail hbs hlen
  | .nested inner _, c, hc, hbs, hkept =>
    have hinner := runAll_bodies inner c.pushFrame hc.pushFrame hbs fun _ _ hp => hkept _ _ (.nested hp)
    (runAll_grows inner c.pushFrame hc.pushFrame).suffix_restore hc hbs hinner
  | .render name inner breaksOff, c, hc, hbs, hkept => by
    cases he : c.visibleEntry? name with
    | none =>
      rw [run_render_none he]
      exact hbs
    | some e =>
      rw [run_render_some he]
      exact runAll_bodies inner (c.hide e.frame) (hc.congr rfl rfl) hbs fun _ _ hp => hkept _ _ (.render he hp)

theorem runAll_bodies {bs : List Body} : (steps : List (Step α)) → ∀ c : Context α, c.Layered → bs <:+ c.bodies →
    (∀ rendering p, Passes c steps rendering p → bs.length ≤ p.bodies.length) → bs <:+ (runAll c steps).2.bodies
  | [], _, _, hbs, _ => hbs
  | s :: steps, c, hc, hbs, hkept =>
    have hs := run_bodies s c hc hbs fun _ _ hp => hkept _ _ (hp.append steps)
    runAll_bodies steps (s.run c).2 (run_grows s c hc).layered hs fun _ _ hp => hkept _ _ (.later hp)

end

/-- What is done until a run breaks off keeps the lowest outputs, if the run never has fewer. -/
theorem Ends.bodies {bs : List Body} {steps done : List (Step α)} (h : Ends steps done) (hc : c.Layered) (hbs : bs <:+ c.bodies)
    (hkept : ∀ rendering p, Passes c steps rendering p → bs.length ≤ p.bodies.length) : bs <:+ (runAll c done).2.bodies := by
  induction h generalizing c with
  | whole => exact runAll_bodies _ c hc hbs hkept
  | here => exact hbs
  | @later s steps _ _ ih =>
    have hs := run_bodies s c hc hbs fun _ _ hp => hkept _ _ (hp.append steps)
    exact ih (run_grows s c hc).layered hs fun _ _ hp => hkept _ _ (.later hp)
  | @nested _ done _ _ _ ih =>
    have hinner := ih hc.pushFrame hbs fun _ _ hp => hkept _ _ (.nested hp)
    exact (runAll_grows done c.pushFrame hc.pushFrame).suffix_restore hc hbs hinner
  | @render name _ done _ breaksOff _ ih =>
    show bs <:+ ((Step.render name done true).run c).2.bodies
    cases he : c.visibleEntry? name with
    | none =>
      rw [run_render_none he]
      exact hbs
    | some e =>
      rw [run_render_some he]
      exact ih (c := c.hide e.frame) (hc.congr rfl rfl) hbs fun _ _ hp => hkept _ _ (.render he hp)

theorem Passes.layered {p : Context α} {steps : List (Step α)} {rendering : List (Entry α)}
    (h : Passes c steps rendering p) (hc : c.Layered) : p.Layered := by
  induction h with
  | here => exact hc
  | later _ ih => exact ih (run_grows _ _ hc).layered
  | nested _ ih => exact ih hc.pushFrame
  | render _ _ ih => exact ih (hc.congr rfl rfl)

end Step

/-! ### Nested renders -/

namespace Context

variable [DecidableEq α]

/-- A context that a run of steps from the start passes through. -/
def Reachable (c : Context α) : Prop := ∃ steps rendering, Step.Passes {} steps rendering c

variable {c : Context α}

theorem Reachable.layered (h : c.Reachable) : c.Layered := by
  obtain ⟨_, _, h⟩ := h
  exact h.layered .start

/-- A nested render leaves the context as it was, whatever is done in it and wherever that breaks off, if there are never
fewer outputs to wrap than there were on entry. -/
theorem nested_restores (hc : c.Reachable) {steps done : List (Step α)} (hdone : Step.Ends steps done)
    (hkept : ∀ rendering p, Step.Passes c.pushFrame steps rendering p → c.bodies.length ≤ p.bodies.length) :
    (c.nested fun inner => Step.runAll inner done).2 = c := by
  have hinner := hc.layered.pushFrame
  obtain ⟨more, hbodies⟩ : c.bodies <:+ (Step.runAll c.pushFrame done).2.bodies :=
    hdone.bodies hinner (List.suffix_refl _) hkept
  have hgrows := Step.runAll_grows done c.pushFrame hinner
  show restore c (Step.runAll c.pushFrame done).2 = c
  rw [hgrows.restore_eq hc.layered, ← hbodies, keep_append]

/-- A nested render breaks off within a section, with an output on top and another one already taken off. -/
theorem nested_restores_section :
    (((({} : Context String).pushBody ⟨"child", "body"⟩).nested fun inner => Step.runAll inner
      [.push ⟨"layout", "more"⟩, .nested [.define "Foot" "note", .render "Foot" [.pop] true] true]).2 =
        ({} : Context String).pushBody ⟨"child", "body"⟩) := by
  have hdone : Step.Ends
      [Step.push ⟨"layout", "more"⟩,
        .nested [.define "Foot" "note", .render "Foot" [.pop, .push ⟨"part", "last"⟩] false, .depth] false]
      [.push ⟨"layout", "more"⟩, .nested [.define "Foot" "note", .render "Foot" [.pop] true] true] :=
    .later (.nested (.later (.render (.later .here))))
  refine nested_restores ⟨[.push ⟨"child", "body"⟩], [], .later .here⟩ hdone fun rendering p hp => ?_
  rcases hp with _ | hp
  · decide
  rcases hp with _ | hp | hp
  · decide
  · cases hp
    decide
  rcases hp with _ | hp
  · decide
  rcases hp with _ | hp | _ | ⟨_, hp⟩
  · decide
  · rcases hp with _ | hp
    · decide
    · cases hp
      decide
  · rcases hp with _ | hp
    · exact Nat.le_succ _
    rcases hp with _ | hp
    · exact Nat.le_refl _
    cases hp
    exact Nat.le_succ _

end Context

namespace Step

mutual

/-- The outputs that an operation and what is nested in it put on top, as true, and take off, as false, in turn. -/
def moves : Step α → List Bool
  | push _ => [true]
  | pop => [false]
  | nested steps _ | render _ steps _ => allMoves steps
  | define .. | lookup _ | body | depth => []

def allMoves : List (Step α) → List Bool
  | [] => []
  | s :: steps => s.moves ++ allMoves steps

end

end Step

/-- What a further nested render has put on top is gone with it. So as many outputs are put on top as are taken off, and the
one that was there on entry is taken off. -/
theorem Context.nested_takes_outer :
    let c := ({} : Context String).pushBody ⟨"child", "body"⟩
    let steps : List (Step String) := [.nested [.push ⟨"layout", "more"⟩] false, .pop]
    c.Reachable ∧ (∀ n, ((Step.allMoves steps).take n).count false ≤ ((Step.allMoves steps).take n).count true) ∧
      (c.nested fun inner => Step.runAll inner steps).2 ≠ c := by
  refine ⟨⟨[.push ⟨"child", "body"⟩], [], .later .here⟩, fun n => ?_, by decide⟩
  match n with
  | 0 | 1 => decide
  | n + 2 => simp [Step.allMoves, Step.moves]

end Stencil
