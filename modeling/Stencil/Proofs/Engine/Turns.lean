import Stencil.Proofs.Engine.Emitting

/-! The turns of a page.

The render of a page nests: each template renders its layout inside of its own render. Seen from outside it is a sequence:
the page's body runs, then its layout's, then that layout's, each in the scene that the one before it has left; the render
gives what the last of them gives, and fails as soon as one of them fails. -/

namespace Stencil

/-- A page that an engine renders in a chain, starting in a state. -/
structure Page where
  engine : Engine
  compiled : CompiledTemplate
  modelType : ModelType
  model : Json
  chain : RenderChain
  state : EngineState

/-- A template whose turn it is to run its body. -/
structure Turn where
  compiled : CompiledTemplate
  /-- The chain that has entered the template. -/
  chain : RenderChain
  role : Role
  /-- The scene in which the body starts. -/
  start : Scene EngineState

/-- How an engine renders the templates further inside of one in a chain. -/
def Engine.further (e : Engine) (chain : RenderChain) : Option Engine.Renderer :=
  match chain.room with
  | 0 => none
  | room + 1 => some (e.renderer room)

theorem Engine.renderer_eq (e : Engine) (chain : RenderChain) : e.renderer chain.room = e.renderWith (e.further chain) := by
  unfold further
  cases chain.room <;> rfl

theorem Engine.further_of_enter (e : Engine) {chain chain' : RenderChain} {key : String} (h : chain.enter key = .ok chain') :
    e.further chain = some (e.renderer chain'.room) := by
  rw [further, ← RenderChain.room_of_enter h]

theorem RenderChain.enter_ok {chain chain' : RenderChain} {key : String} (h : chain.enter key = .ok chain') :
    key ∉ chain.keys ∧ chain'.keys = chain.keys ++ [key] := by
  unfold enter enterPartial at h
  split at h
  · cases h
  · rename_i hnew
    split at h
    · cases h
    · cases h
      exact ⟨fun hmem => hnew (List.contains_iff_mem.mpr hmem), rfl⟩

namespace Turn

/-- What renders the partials of the template. -/
def host (p : Page) (t : Turn) : Host EngineState := p.engine.host (p.engine.further t.chain) t.chain

/-- The run of the template's body: its output, and the scene that it leaves. -/
def run (p : Page) (t : Turn) : Except Halt String × Scene EngineState := t.compiled.execute p.model (t.host p) t.start

/-- The turn of the layout, if the body has an output and the template a layout that the chain can take and that can be
loaded. The layout runs in a new frame, with the output to wrap. -/
def next? (p : Page) (t : Turn) : Option Turn := do
  let body ← (t.run p).1.toOption
  let key ← Engine.layoutToFollow t.compiled t.role
  let chain ← (t.chain.enter key).toOption
  let loaded := p.engine.load key p.modelType (t.run p).2.host
  let layout ← loaded.1.toOption
  return ⟨layout, chain, .layout, ⟨(t.run p).2.context.pushFrame.pushBody ⟨t.compiled.template, body⟩, loaded.2⟩⟩

/-- What rendering the template gives with all the layouts around it. -/
def result (p : Page) (t : Turn) : Except Halt String × Scene EngineState :=
  p.engine.renderer t.chain.room t.compiled p.modelType p.model t.chain t.role t.start

variable {p : Page} {t t' : Turn}

/-- A turn comes after a body that has an output, and starts with that output to wrap, above the frame of the body. -/
theorem next?_eq_some (h : t.next? p = some t') : ∃ body key, (t.run p).1 = .ok body ∧
    Engine.layoutToFollow t.compiled t.role = some key ∧ t.chain.enter key = .ok t'.chain ∧ t'.role = .layout ∧
    p.engine.load key p.modelType (t.run p).2.host = (.ok t'.compiled, t'.start.host) ∧
    t'.start.context = (t.run p).2.context.pushFrame.pushBody ⟨t.compiled.template, body⟩ := by
  simp only [next?, Option.bind_eq_bind, Option.bind_eq_some_iff, Option.pure_def, Option.some.injEq] at h
  obtain ⟨body, hbody, key, hkey, chain, hchain, layout, hlayout, rfl⟩ := h
  exact ⟨body, key, eq_ok_of_toOption hbody, hkey, eq_ok_of_toOption hchain, rfl, Prod.ext (eq_ok_of_toOption hlayout) rfl, rfl⟩

theorem result_eq (p : Page) (t : Turn) : t.result p = match t.run p with
    | (.error h, s) => (.error h, s)
    | (.ok body, s) => match Engine.layoutToFollow t.compiled t.role with
      | none => (.ok body, s)
      | some key => (do
          let chain ← Engine.within (Engine.entered (t.chain.enter key))
          let layout ← Engine.within (p.engine.load key p.modelType)
          let render ← Engine.within (Engine.inside (p.engine.further t.chain))
          inNewFrame (withBody ⟨t.compiled.template, body⟩ (render layout p.modelType p.model chain .layout)) :
            Execution EngineState String) s := by
  rw [result, Engine.renderer_eq, Engine.renderWith, bind_run]
  rcases h : t.run p with ⟨_ | body, s⟩ <;> rw [run, host] at h <;> rw [h]
  dsimp only
  cases Engine.layoutToFollow t.compiled t.role <;> rfl

/-- A body that fails is the end of the render. -/
theorem result_error {h : Halt} (hrun : (t.run p).1 = .error h) : (t.result p).1 = .error h := by
  rw [result_eq]
  rcases h : t.run p with ⟨_ | _, s⟩ <;> rw [h] at hrun <;> cases hrun
  rfl

/-- The last template's output is that of the render. -/
theorem result_last (hlayout : Engine.layoutToFollow t.compiled t.role = none) : t.result p = t.run p := by
  rw [result_eq, hlayout]
  rcases t.run p with ⟨_ | _, s⟩ <;> rfl

/-- Before the last, a render gives what the layout gives, and leaves what it leaves. -/
theorem result_next (h : t.next? p = some t') :
    (t.result p).1 = (t'.result p).1 ∧ (t.result p).2.host = (t'.result p).2.host := by
  obtain ⟨body, key, hbody, hkey, hchain, hrole, hload, hstart⟩ := next?_eq_some h
  rw [result_eq, hkey]
  rcases hrun : t.run p with ⟨_ | output, s⟩ <;> rw [hrun] at hbody hload hstart <;> cases hbody
  dsimp only at hload hstart ⊢
  -- The chain is entered, the layout loaded and the renderer taken, in this order.
  have hentered : Engine.within (Engine.entered (t.chain.enter key)) s = (.ok t'.chain, s) := by
    rw [hchain]
    rfl
  have hloaded : Engine.within (p.engine.load key p.modelType) s = (.ok t'.compiled, ⟨s.context, t'.start.host⟩) := by
    show ((p.engine.load key p.modelType s.host).1, Scene.mk s.context (p.engine.load key p.modelType s.host).2) = _
    rw [hload]
  have hinside : ∀ s, Engine.within (Engine.inside (p.engine.further t.chain)) s = (.ok (p.engine.renderer t'.chain.room), s) := by
    intro s
    rw [p.engine.further_of_enter hchain]
    rfl
  rw [bind_run, hentered]
  dsimp only
  rw [bind_run, hloaded]
  dsimp only
  rw [bind_run, hinside]
  have hresult : t'.result p = p.engine.renderer t'.chain.room t'.compiled p.modelType p.model t'.chain .layout
      ⟨s.context.pushFrame.pushBody ⟨t.compiled.template, body⟩, t'.start.host⟩ := by
    rw [result, hrole, ← hstart]
  have hwithin := @Engine.renderer_within p.engine (fun _ => True) (fun _ _ _ _ => trivial) t'.chain.room t'.compiled
    p.modelType p.model t'.chain .layout (⟨t.compiled.template, body⟩ :: s.context.bodies)
  have hkept := (hwithin.kept ⟨s.context.pushFrame.pushBody ⟨t.compiled.template, body⟩, t'.start.host⟩ ⟨trivial, rfl⟩).bodies
  -- The render of the layout leaves the output on top, so that it is taken off.
  have hbody := @withBody_eq _ _ ⟨t.compiled.template, body⟩
    (p.engine.renderer t'.chain.room t'.compiled p.modelType p.model t'.chain .layout)
    ⟨s.context.pushFrame, t'.start.host⟩ hkept
  rw [hresult]
  show (withBody _ _ _).1 = _ ∧ (withBody _ _ _).2.host = _
  rw [hbody]
  exact ⟨rfl, rfl⟩

/-- A render with an output is over after the template's turn, or its layout has the next turn. -/
theorem next?_of_result {text : String} (h : (t.result p).1 = .ok text) :
    Engine.layoutToFollow t.compiled t.role = none ∨ ∃ t', t.next? p = some t' := by
  rw [result, Engine.renderer_eq, Engine.renderWith] at h
  obtain ⟨body, hbody, h⟩ := bind_ok h
  have hrun : (t.run p).1 = .ok body := hbody
  cases hkey : Engine.layoutToFollow t.compiled t.role with
  | none => exact .inl rfl
  | some key =>
    rw [hkey] at h
    obtain ⟨chain, hentered, h⟩ := bind_ok h
    obtain ⟨layout, hloaded, -⟩ := bind_ok h
    have hchain : t.chain.enter key = .ok chain := by
      cases hc : t.chain.enter key <;> rw [hc] at hentered <;> cases hentered
      rfl
    have hload : (p.engine.load key p.modelType (t.run p).2.host).1 = .ok layout := hloaded
    refine .inr (Option.isSome_iff_exists.mp ?_)
    simp only [next?, hrun, hkey, hchain, hload, Except.toOption, Option.bind_eq_bind, Option.bind_some, Option.pure_def,
      Option.isSome_some]

end Turn

namespace Page

variable {p : Page}

/-- What rendering the page gives, and the state that it leaves. -/
def result (p : Page) : Except Halt String × EngineState :=
  p.engine.renderPage p.compiled p.modelType p.model p.chain p.state

/-- The page's own turn: no output is there to wrap. -/
def first (p : Page) : Turn := ⟨p.compiled, p.chain, .page, ⟨({} : Context Action).pushFrame, p.state⟩⟩

/-- The turn with a number, and the turns before it, the latest first. The page has the turn number zero. -/
def turn? (p : Page) : Nat → Option (Turn × List Turn)
  | 0 => some (p.first, [])
  | i + 1 => (p.turn? i).bind fun (t, earlier) => (t.next? p).map (·, t :: earlier)

theorem turn?_next {i : Nat} {t : Turn} {earlier : List Turn} (h : p.turn? i = some (t, earlier)) :
    p.turn? (i + 1) = (t.next? p).map (·, t :: earlier) := by
  rw [turn?, h]
  rfl

theorem turn?_succ {i : Nat} {t' : Turn} {later : List Turn} (h : p.turn? (i + 1) = some (t', later)) :
    ∃ t earlier, p.turn? i = some (t, earlier) ∧ t.next? p = some t' ∧ later = t :: earlier := by
  obtain ⟨⟨t, earlier⟩, hturn, h⟩ := Option.bind_eq_some_iff.mp h
  obtain ⟨_, hnext, heq⟩ := Option.map_eq_some_iff.mp h
  cases heq
  exact ⟨t, earlier, hturn, hnext, rfl⟩

/-- The render gives what rendering from any turn on gives. -/
theorem result_turn {i : Nat} {t : Turn} {earlier : List Turn} (h : p.turn? i = some (t, earlier)) :
    p.result.1 = (t.result p).1 ∧ p.result.2 = (t.result p).2.host := by
  induction i generalizing t earlier with
  | zero =>
    cases h
    exact ⟨rfl, rfl⟩
  | succ i ih =>
    obtain ⟨u, us, hu, hnext, -⟩ := turn?_succ h
    obtain ⟨hresult, hstate⟩ := ih hu
    obtain ⟨hresult', hstate'⟩ := Turn.result_next hnext
    exact ⟨hresult.trans hresult', hstate.trans hstate'⟩

/-- A turn has entered as many layouts as its number tells, each of them once. -/
theorem layouts_turn {i : Nat} {t : Turn} {earlier : List Turn} (h : p.turn? i = some (t, earlier)) :
    ∃ layouts, t.chain.keys = p.chain.keys ++ layouts ∧ layouts.length = i ∧ layouts.Nodup ∧ p.chain.keys.Disjoint layouts := by
  induction i generalizing t earlier with
  | zero =>
    cases h
    exact ⟨[], (List.append_nil _).symm, rfl, List.nodup_nil, List.disjoint_nil_right _⟩
  | succ i ih =>
    obtain ⟨u, us, hu, hnext, -⟩ := turn?_succ h
    obtain ⟨layouts, hkeys, hlength, hnodup, hdisjoint⟩ := ih hu
    obtain ⟨_, key, -, -, hchain, -⟩ := Turn.next?_eq_some hnext
    obtain ⟨hnew, hkeys'⟩ := RenderChain.enter_ok hchain
    rw [hkeys, List.mem_append, not_or] at hnew
    refine ⟨layouts ++ [key], ?_, ?_, ?_, ?_⟩
    · rw [hkeys', hkeys, List.append_assoc]
    · rw [List.length_append, hlength, List.length_singleton]
    · rw [List.nodup_append_comm]
      exact List.nodup_cons.mpr ⟨hnew.2, hnodup⟩
    · exact List.disjoint_append_right.mpr ⟨hdisjoint, List.disjoint_singleton.mpr hnew.1⟩

theorem no_turn_after {i : Nat} {t : Turn} {earlier : List Turn} (h : p.turn? i = some (t, earlier)) (hlast : t.next? p = none)
    {j : Nat} (hj : i < j) : p.turn? j = none := by
  induction j, hj using Nat.le_induction with
  | base => rw [turn?_next h, hlast, Option.map_none]
  | succ j _ ih => rw [turn?, ih, Option.bind_none]

theorem turn?_isSome {n i : Nat} (h : (p.turn? n).isSome) (hi : i ≤ n) : (p.turn? i).isSome := by
  induction n, hi using Nat.le_induction with
  | base => exact h
  | succ n _ ih =>
    obtain ⟨⟨t, earlier⟩, ht⟩ := Option.isSome_iff_exists.mp h
    obtain ⟨u, us, hu, -, -⟩ := turn?_succ ht
    exact ih (Option.isSome_iff_exists.mpr ⟨_, hu⟩)

/-- If the render has an output, the turns end with a template that has no layout to follow, and the output is that
template's. -/
theorem last_turn {text : String} (h : p.result.1 = .ok text) : ∃ n last earlier, p.turn? n = some (last, earlier) ∧
    (∀ i, (p.turn? i).isSome ↔ i ≤ n) ∧ Engine.layoutToFollow last.compiled last.role = none ∧
    last.run p = (.ok text, ⟨(last.run p).2.context, p.result.2⟩) := by
  have hlast : ∀ i t earlier, p.turn? i = some (t, earlier) →
      ∃ n last earlier, p.turn? n = some (last, earlier) ∧ Engine.layoutToFollow last.compiled last.role = none := by
    intro i t earlier hturn
    -- Each turn leaves less room in the chain.
    induction hroom : t.chain.room using Nat.strong_induction_on generalizing i t earlier with
    | _ room ih =>
      rcases Turn.next?_of_result ((result_turn hturn).1.symm.trans h) with hlayout | ⟨t', hnext⟩
      · exact ⟨i, t, earlier, hturn, hlayout⟩
      · obtain ⟨_, _, -, -, hchain, -⟩ := Turn.next?_eq_some hnext
        have hless : t'.chain.room < room := by
          have := RenderChain.room_of_enter hchain
          omega
        exact ih _ hless (i + 1) t' (t :: earlier) (by rw [turn?_next hturn, hnext, Option.map_some]) rfl
  obtain ⟨n, last, earlier, hturn, hlayout⟩ := hlast 0 p.first [] rfl
  obtain ⟨hresult, hstate⟩ := result_turn hturn
  rw [Turn.result_last hlayout] at hresult hstate
  have hnext : last.next? p = none := by
    rcases hn : last.next? p with _ | t'
    · rfl
    · obtain ⟨_, _, -, hkey, -⟩ := Turn.next?_eq_some hn
      rw [hlayout] at hkey
      cases hkey
  refine ⟨n, last, earlier, hturn, fun i => ⟨fun hi => ?_, turn?_isSome (Option.isSome_iff_exists.mpr ⟨_, hturn⟩)⟩, hlayout, ?_⟩
  · -- A turn after the last one would have to follow it.
    by_contra hlt
    rw [no_turn_after hturn hnext (Nat.lt_of_not_le hlt)] at hi
    cases hi
  · rw [hstate, ← h, hresult]

end Page

end Stencil
