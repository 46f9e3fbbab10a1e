import Stencil.Proofs.Render.Nested

/-! What a section that is being rendered hides.

Only the innermost ceiling decides what is shown. A section that is rendered within another one brings its own, which shows
all below the frame of its definition; so if that frame was entered since, what the outer section hides is shown again. -/

namespace Stencil.Context

variable {α : Type} {c : Context α}

/-! ### Hidden frames -/

/-- How the frames from one up to, but without, another are hidden while some sections are being rendered, the innermost
first: only a section from further up shows them, and the sections are from further down until there is one from beyond. -/
structure Hides (hiddenFrom upTo : Nat) (rendering : List (Entry α)) (c : Context α) : Prop where
  layered : c.Layered
  depth : upTo ≤ c.depth
  shown : ∀ g, hiddenFrom ≤ g → g < upTo → (c.shows g = true ↔ ∃ r, rendering.head? = some r ∧ g < r.frame)
  further : (∀ r ∈ rendering, r.frame < upTo) → ∀ r ∈ rendering, r.frame < hiddenFrom

namespace Hides

variable {hiddenFrom upTo : Nat} {rendering : List (Entry α)}

theorem hide (hc : c.Layered) (frame : Nat) : Hides frame c.depth [] (c.hide frame) where
  layered := hc.congr rfl rfl
  depth := Nat.le_refl _
  shown g hfrom hupTo := by
    rw [shows_hide hupTo]
    constructor
    · exact fun hlt => absurd hfrom (Nat.not_le.mpr hlt)
    · rintro ⟨_, hnone, -⟩
      cases hnone
  further _ _ hr := (nomatch hr)

theorem grows {d : Context α} (h : Hides hiddenFrom upTo rendering c) (hd : c.Grows d) : Hides hiddenFrom upTo rendering d where
  layered := hd.layered
  depth := hd.depth ▸ h.depth
  shown := by
    have hshows : d.shows = c.shows := by
      unfold shows
      rw [hd.ceilings]
    rw [hshows]
    exact h.shown
  further := h.further

theorem pushFrame (h : Hides hiddenFrom upTo rendering c) : Hides hiddenFrom upTo rendering c.pushFrame :=
  ⟨h.layered.pushFrame, Nat.le_succ_of_le h.depth, h.shown, h.further⟩

/-- What is selected is outside the hidden frames, unless a section from beyond them is being rendered. -/
theorem selected (h : Hides hiddenFrom upTo rendering c) {name : String} {e : Entry α} (he : c.visibleEntry? name = some e)
    (hfrom : hiddenFrom ≤ e.frame) (hupTo : e.frame < upTo) : ∃ r ∈ rendering, upTo ≤ r.frame := by
  obtain ⟨r, hr, hlt⟩ := (h.shown e.frame hfrom hupTo).mp (visibleEntry?_shows he)
  refine Classical.byContradiction fun hno => ?_
  have hbelow : ∀ r ∈ rendering, r.frame < upTo := fun r hr => Nat.lt_of_not_le fun hle => hno ⟨r, hr, hle⟩
  have hrbelow : r.frame < hiddenFrom := h.further hbelow r (List.mem_of_mem_head? hr)
  omega

theorem render (h : Hides hiddenFrom upTo rendering c) {name : String} {e : Entry α} (he : c.visibleEntry? name = some e) :
    Hides hiddenFrom upTo (e :: rendering) (c.hide e.frame) where
  layered := h.layered.congr rfl rfl
  depth := h.depth
  shown g _ hupTo := by
    rw [shows_hide (Nat.lt_of_lt_of_le hupTo h.depth)]
    simp
  further hbelow r hr := by
    have hrest : ∀ r ∈ rendering, r.frame < upTo := fun r hr => hbelow r (List.mem_cons_of_mem _ hr)
    rcases List.mem_cons.mp hr with rfl | hr
    · rcases Nat.lt_or_ge r.frame hiddenFrom with hlt | hfrom
      · exact hlt
      · obtain ⟨r', hr', hle⟩ := h.selected he hfrom (hbelow _ List.mem_cons_self)
        exact absurd (hrest r' hr') (Nat.not_lt.mpr hle)
    · exact h.further hrest r hr

variable [DecidableEq α]

theorem passes {steps : List (Step α)} {inner : List (Entry α)} {p : Context α} (h : Hides hiddenFrom upTo rendering c)
    (hp : Step.Passes c steps inner p) : Hides hiddenFrom upTo (inner ++ rendering) p := by
  induction hp generalizing rendering with
  | here => exact h
  | @later c _ s _ _ _ ih => exact ih (h.grows (Step.run_grows s c h.layered))
  | nested _ ih => exact ih h.pushFrame
  | render he _ ih =>
    rw [List.append_assoc]
    exact ih (h.render he)

end Hides

/-! ### Rendering a section -/

variable [DecidableEq α] {name : String} {e : Entry α} {steps : List (Step α)} {breaksOff : Bool} {rendering : List (Entry α)}
  {p : Context α}

/-- While a section renders, a frame from its own up to the frames that were there is shown exactly if the innermost section
that is rendered within it is defined further up. So a definition made there is found only while a section is being rendered
that is defined in a frame entered since. -/
theorem hidden_while_rendering (hc : c.Reachable) (hp : Step.Passes c [.render name steps breaksOff] (rendering ++ [e]) p) :
    (∀ g, e.frame ≤ g → g < c.depth → (p.shows g = true ↔ ∃ r, rendering.head? = some r ∧ g < r.frame)) ∧
      ∀ n found, p.visibleEntry? n = some found → e.frame ≤ found.frame → found.frame < c.depth →
        ∃ r ∈ rendering, c.depth ≤ r.frame := by
  have h : Hides e.frame c.depth (rendering ++ []) p := (Hides.hide hc.layered e.frame).passes hp.of_render.2
  rw [List.append_nil] at h
  exact ⟨h.shown, fun _ _ => h.selected⟩

/-- A section that another one renders from a frame of its own finds the other one again. -/
theorem hidden_while_rendering_note :
    let c : Context String := ⟨[["Foot"]], [("Foot", [⟨0, "outer"⟩])], [], []⟩
    let p : Context String :=
      ⟨[["Note"], ["Foot"]], [("Foot", [⟨0, "outer"⟩]), ("Note", [⟨1, "inner"⟩])], [⟨1, 2⟩, ⟨0, 1⟩], []⟩
    Step.Passes c [.render "Foot" [.nested [.define "Note" "inner", .render "Note" [] false] false] false]
        [⟨1, "inner"⟩, ⟨0, "outer"⟩] p ∧
      p.visibleEntry? "Foot" = some ⟨0, "outer"⟩ ∧ ∃ r ∈ [(⟨1, "inner"⟩ : Entry String)], c.depth ≤ r.frame := by
  intro c p
  have hc : c.Reachable := ⟨[.define "Foot" "outer"], [], .later .here⟩
  have hp : Step.Passes c [.render "Foot" [.nested [.define "Note" "inner", .render "Note" [] false] false] false]
      ([] ++ [⟨1, "inner"⟩] ++ [⟨0, "outer"⟩]) p :=
    .render (by decide) (.nested (.later (.render (by decide) .here)))
  exact ⟨hp, by decide, (hidden_while_rendering hc hp).2 "Foot" ⟨0, "outer"⟩ (by decide) (by decide) (by decide)⟩

end Stencil.Context
