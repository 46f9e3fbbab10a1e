import Stencil.Proofs.Render.Registering

/-! Executions in scenes that are alike.

Code looks at the context of its scene and at what partials give, and at nothing else of the host. So if partials give the
same in two scenes, the code does the same in both, and leaves scenes that are alike again. -/

namespace Stencil

open Ir (Expr Stmt Branch)

variable {S σ α β ε ε' : Type}

/-- A computation does the same in any two states that are alike, and leaves states that are alike. -/
structure Alike (R : S → S → Prop) (x : ExceptT ε (StateM S) α) : Prop where
  same : ∀ s s', R s s' → (x s).1 = (x s').1
  left : ∀ s s', R s s' → R (x s).2 (x s').2

namespace Alike

variable {R : S → S → Prop}

theorem of_run {x : ExceptT ε (StateM S) α} (h : ∀ s s', R s s' → (x s).1 = (x s').1 ∧ R (x s).2 (x s').2) :
    Alike R x := ⟨fun s s' hs => (h s s' hs).1, fun s s' hs => (h s s' hs).2⟩

theorem run {x : ExceptT ε (StateM S) α} (hx : Alike R x) {s s' : S} (hs : R s s') :
    (x s).1 = (x s').1 ∧ R (x s).2 (x s').2 := ⟨hx.same s s' hs, hx.left s s' hs⟩

theorem pure (a : α) : Alike R (pure a : ExceptT ε (StateM S) α) := ⟨fun _ _ _ => rfl, fun _ _ h => h⟩

theorem throw (e : ε) : Alike R (throw e : ExceptT ε (StateM S) α) := ⟨fun _ _ _ => rfl, fun _ _ h => h⟩

/-- A computation may go on from what another one gives. -/
theorem bind_given {x : ExceptT ε (StateM S) α} {f : α → ExceptT ε (StateM S) β} (hx : Alike R x)
    (hf : ∀ s s' a, R s s' → (x s).1 = .ok a → Alike R (f a)) : Alike R (x >>= f) := by
  refine .of_run fun s s' hs => ?_
  have hleft := hx.left s s' hs
  rw [bind_run, bind_run, ← hx.same s s' hs]
  cases ha : (x s).1 with
  | error e => exact ⟨rfl, hleft⟩
  | ok a => exact (hf s s' a hs ha).run hleft

theorem bind {x : ExceptT ε (StateM S) α} {f : α → ExceptT ε (StateM S) β} (hx : Alike R x)
    (hf : ∀ a, Alike R (f a)) : Alike R (x >>= f) := hx.bind_given fun _ _ a _ _ => hf a

/-- A computation may go on from what two states that are alike have in common. -/
theorem get {γ : Type} {f : S → ExceptT ε (StateM S) α} (part : S → γ) (g : γ → ExceptT ε (StateM S) α)
    (hf : ∀ s, f s = g (part s)) (hpart : ∀ s s', R s s' → part s = part s') (h : ∀ c, Alike R (g c)) :
    Alike R (MonadState.get >>= f) := by
  have hrun : ∀ s, (MonadState.get >>= f) s = g (part s) s := fun s => congrFun (hf s) s
  refine .of_run fun s s' hs => ?_
  rw [hrun, hrun, hpart s s' hs]
  exact (h _).run hs

theorem adapt {f : ε → ε'} {x : ExceptT ε (StateM S) α} (hx : Alike R x) : Alike R (ExceptT.adapt f x) where
  same s s' hs := congrArg (Except.mapError f) (hx.same s s' hs)
  left := hx.left

theorem mapM {γ : Type} {f : γ → ExceptT ε (StateM S) α} (hf : ∀ x, Alike R (f x)) (xs : List γ) :
    Alike R (xs.mapM f) := by
  induction xs with
  | nil =>
    rw [List.mapM_nil]
    exact pure _
  | cons x xs ih =>
    rw [List.mapM_cons]
    exact (hf x).bind fun _ => ih.bind fun _ => pure _

end Alike

/-! ### Scenes -/

/-- Two scenes with the same context, whose sections were compiled for certain model types, and with hosts that belong
together. -/
structure Scene.Like (T : ModelType → Prop) (H : σ → σ → Prop) (s s' : Scene σ) : Prop where
  context : s.context = s'.context
  types : ∀ a, s.context.Holds a → T a.compiled.modelType
  host : H s.host s'.host

/-- Partials for certain model types do the same for states that belong together. -/
def Host.Alike (T : ModelType → Prop) (H : σ → σ → Prop) (host : Host σ) : Prop :=
  ∀ key modelType v, T modelType → Stencil.Alike H (host.embed key modelType v : ExceptT Halt (StateM σ) String)

/-- What is around the code of a template does the same in scenes that are alike. -/
structure Machine.Settled (T : ModelType → Prop) (H : σ → σ → Prop) (m : Machine σ) : Prop where
  dynamic : T .dynamic
  compiled : T m.compiled.modelType
  host : m.host.Alike T H
  sections : ∀ name, Alike (Scene.Like T H) (m.renderSection name)

variable {T : ModelType → Prop} {H : σ → σ → Prop}

theorem Host.Alike.partial {host : Host σ} (h : host.Alike T H) (key : String) {modelType : ModelType} (ht : T modelType)
    (v : Json) : Stencil.Alike (Scene.Like T H) (host.partial key modelType v) where
  same _ _ hs := (h key modelType v ht).same _ _ hs.host
  left _ _ hs := ⟨hs.context, hs.types, (h key modelType v ht).left _ _ hs.host⟩

namespace Machine

variable {m : Machine σ}

/-! ### Expressions -/

theorem need_alike (v : Option α) (c : ExecutionCause) : Alike (Scene.Like T H) (need v c : Evaluation σ α) := by
  cases v with
  | none => exact .throw _
  | some a => exact .pure a

theorem textArg_alike (b : Ir.Builtin) (what : String) (v : Option Json) :
    Alike (Scene.Like T H) (textArg b what v : Evaluation σ String) := by
  unfold textArg
  split
  · exact .pure _
  · exact .throw _

theorem callBuiltin_alike (hm : m.Settled T H) (b : Ir.Builtin) (args : List Json) :
    Alike (Scene.Like T H) (m.callBuiltin b args) := by
  cases b with
  | renderBody =>
    -- The bodies are the same in both scenes, so that what is read of them is.
    refine Alike.get (·.context.bodies.head?)
      (fun body => need body .bodyUnavailable >>= fun body => pure (.markup body.content))
      (fun _ => rfl) (fun s s' hs => by rw [hs.context]) fun body => ?_
    exact (need_alike _ _).bind fun _ => .pure _
  | isSectionDefined =>
    refine (textArg_alike _ _ _).bind fun name => ?_
    exact Alike.get (·.context.isDefined name) (fun b => pure (.value (.bool b))) (fun _ => rfl)
      (fun s s' hs => by rw [hs.context]) fun _ => .pure _
  | renderSection =>
    refine (textArg_alike _ _ _).bind fun name => ?_
    refine (hm.sections name).adapt.bind fun text => ?_
    cases text with
    | some text => exact .pure _
    | none =>
      dsimp only
      split
      · exact .throw _
      · exact .pure _
  | embed =>
    refine (textArg_alike _ _ _).bind fun key => ?_
    dsimp only
    cases args.tail.head? with
    | some model => exact (hm.host.partial key hm.dynamic model).adapt.bind fun _ => .pure _
    | none => exact (hm.host.partial key hm.compiled m.model).adapt.bind fun _ => .pure _
  | raw => exact (need_alike _ _).bind fun _ => .pure _

theorem callHelper_alike (slot : Nat) (h : Helper) (args : List Json) :
    Alike (Scene.Like T H) (m.callHelper slot h args) := by
  unfold callHelper
  split
  · split
    · exact (need_alike _ _).bind fun _ => .pure _
    · exact .pure _
  · exact .throw _
  · exact .throw _

mutual

theorem eval_alike (hm : m.Settled T H) {caller : Caller σ}
    (hcaller : ∀ invoke, caller = some invoke → ∀ locals e, Alike (Scene.Like T H) (invoke locals e)) (locals : Locals) :
    (e : Expr) → Alike (Scene.Like T H) (m.eval caller locals e)
  | .literal v => .pure _
  | .model => .pure _
  | .var name => (need_alike _ _).bind fun _ => .pure _
  | .member target name => by
    refine (eval_alike hm hcaller locals target).bind fun v => ?_
    exact (need_alike _ _).bind fun _ => .pure _
  | .call (.builtin b) args => (evalAll_alike hm hcaller locals args).bind fun vs => callBuiltin_alike hm b vs
  | .call (.function index) args => by
    refine (need_alike _ _).bind_given fun s s' invoke _ hinvoke => (need_alike _ _).bind fun f => ?_
    refine (evalAll_alike hm hcaller locals args).bind fun vs => hcaller invoke ?_ _ _
    cases caller <;> cases hinvoke
    rfl
  | .call (.helper slot) args => by
    refine (need_alike _ _).bind fun h => ?_
    exact (evalAll_alike hm hcaller locals args).bind fun vs => callHelper_alike slot h vs
  | .not operand => (eval_alike hm hcaller locals operand).bind fun _ => .pure _
  | .binary op lhs rhs => by
    -- Whether the second operand is evaluated depends on the first one, and that has the same value.
    have hr := eval_alike hm hcaller locals rhs
    refine (eval_alike hm hcaller locals lhs).bind fun a => ?_
    cases op with
    | and =>
      dsimp only
      split
      · exact hr.bind fun _ => .pure _
      · exact .pure _
    | or =>
      dsimp only
      split
      · exact .pure _
      · exact hr.bind fun _ => .pure _
    | eq => exact hr.bind fun _ => .pure _
    | ne => exact hr.bind fun _ => .pure _

theorem evalAll_alike (hm : m.Settled T H) {caller : Caller σ}
    (hcaller : ∀ invoke, caller = some invoke → ∀ locals e, Alike (Scene.Like T H) (invoke locals e)) (locals : Locals) :
    (es : List Expr) → Alike (Scene.Like T H) (m.evalAll caller locals es)
  | [] => .pure _
  | e :: es => (eval_alike hm hcaller locals e).bind fun _ => (evalAll_alike hm hcaller locals es).bind fun _ => .pure _

end

theorem evalTo_alike (hm : m.Settled T H) (depth : Nat) (locals : Locals) (e : Expr) :
    Alike (Scene.Like T H) (m.evalTo depth locals e) := by
  induction depth generalizing locals e with
  | zero => exact eval_alike hm (fun _ h => by cases h) locals e
  | succ depth ih =>
    refine eval_alike hm (fun invoke h => ?_) locals e
    cases h
    exact ih

/-! ### Statements -/

theorem evalAt_alike (hm : m.Settled T H) (pos : Option SourcePos) (locals : Locals) (e : Expr) :
    Alike (Scene.Like T H) (m.evalAt pos locals e) :=
  (evalTo_alike hm maxCallDepth locals e).adapt

theorem register_alike (hm : m.Settled T H) (index : Nat) (locals : Locals) :
    Alike (Scene.Like T H) (m.register index locals) := by
  refine .of_run fun s s' hs => ?_
  rw [register_eq, register_eq, ← hs.context]
  cases hd : s.context.define (m.action index locals).name (m.action index locals) with
  | error c => exact ⟨rfl, hs⟩
  | ok context =>
    refine ⟨rfl, rfl, fun a ha => ?_, hs.host⟩
    rcases (Context.define_ok hd).1 a ha with ha | rfl
    · exact hs.types a ha
    · exact hm.compiled

mutual

theorem exec_alike (hm : m.Settled T H) (locals : Locals) : (s : Stmt) → Alike (Scene.Like T H) (m.exec locals s)
  | .write text => .pure _
  | .emit e pos => by
    refine (evalAt_alike hm pos locals e).bind fun v => ?_
    refine Alike.bind (Alike.adapt ?_) fun piece => .pure _
    cases v with
    | markup text => exact .pure _
    | value v => exact (need_alike _ _).bind fun _ => .pure _
  | .bind name e pos => (evalAt_alike hm pos locals e).bind fun _ => .pure _
  | .ifElse branches otherwise pos => by
    rw [exec.eq_def]
    dsimp only
    refine (execBranches_alike hm locals pos branches).bind fun pieces => ?_
    cases pieces with
    | some pieces => exact .pure _
    | none =>
      cases otherwise with
      | none => exact .pure _
      | some body => exact (execAll_alike hm locals body).bind fun _ => .pure _
  | .forEach name source body pos => by
    refine (evalAt_alike hm pos locals source).bind fun v => ?_
    refine Alike.bind (Alike.adapt (need_alike _ _)) fun vs => ?_
    exact (Alike.mapM (fun v => execAll_alike hm ((name, v) :: locals) body) vs).bind fun _ => .pure _
  | .defineSection index => (register_alike hm index locals).bind fun _ => .pure _

theorem execAll_alike (hm : m.Settled T H) (locals : Locals) :
    (ss : List Stmt) → Alike (Scene.Like T H) (m.execAll locals ss)
  | [] => .pure _
  | s :: ss => (exec_alike hm locals s).bind fun r => (execAll_alike hm r.1 ss).bind fun _ => .pure _

theorem execBranches_alike (hm : m.Settled T H) (locals : Locals) (pos : Option SourcePos) :
    (bs : List Branch) → Alike (Scene.Like T H) (m.execBranches locals pos bs)
  | [] => .pure _
  | .mk cond body :: bs => by
    refine (evalAt_alike hm pos locals cond).bind fun v => ?_
    split
    · exact (execAll_alike hm locals body).bind fun _ => .pure _
    · exact execBranches_alike hm locals pos bs

end

theorem output_alike (hm : m.Settled T H) (locals : Locals) (body : List Stmt) :
    Alike (Scene.Like T H) (m.output locals body) :=
  (execAll_alike hm locals body).bind fun _ => .pure _

end Machine

/-! ### Frames -/

namespace Context

variable {α : Type}

theorem withoutFrame_eq_some {frame : Nat} {es kept : List (Entry α)} (h : withoutFrame frame es = some kept) :
    kept = es.filter (·.frame != frame) := by
  unfold withoutFrame at h
  split at h
  · cases h
  · exact (Option.some.inj h).symm

/-- Only the entries of the name are taken out, and only those of the frame. -/
theorem mem_dropEntries {frame : Nat} {name n : String} {sections : List (String × List (Entry α))} {es : List (Entry α)}
    (h : (n, es) ∈ dropEntries frame sections name) :
    n = name ∧ (∃ all, (n, all) ∈ sections ∧ withoutFrame frame all = some es) ∨ n ≠ name ∧ (n, es) ∈ sections := by
  obtain ⟨⟨m, all⟩, hmem, heq⟩ := List.mem_filterMap.mp h
  dsimp only at heq
  split at heq
  · rename_i hname
    obtain ⟨kept, hkept, heq⟩ := Option.map_eq_some_iff.mp heq
    cases heq
    exact .inl ⟨hname, all, hmem, hkept⟩
  · rename_i hname
    cases heq
    exact .inr ⟨hname, hmem⟩

/-- Leaving a frame adds no section. -/
theorem Holds.of_popFrame {c : Context α} {a : α} (h : c.popFrame.Holds a) : c.Holds a := by
  unfold popFrame at h
  split at h
  · exact h
  · rename_i frame outer _
    obtain ⟨n, es, hmem, e, he, rfl⟩ := h
    have hdropped : ∀ (names : List String) (sections : List (String × List (Entry α))) (es : List (Entry α)),
        (n, es) ∈ names.foldl (dropEntries outer.length) sections → e ∈ es → ∃ es', (n, es') ∈ sections ∧ e ∈ es' := by
      intro names
      induction names with
      | nil => exact fun sections es hmem he => ⟨es, hmem, he⟩
      | cons name names ih =>
        intro sections es hmem he
        obtain ⟨es', hmem', he'⟩ := ih _ es hmem he
        rcases mem_dropEntries hmem' with ⟨-, all, hall, hkept⟩ | ⟨-, hmem⟩
        · rw [withoutFrame_eq_some hkept] at he'
          exact ⟨all, hall, (List.mem_filter.mp he').1⟩
        · exact ⟨es', hmem, he'⟩
    obtain ⟨es', hmem', he'⟩ := hdropped frame c.sections es hmem he
    exact ⟨n, es', hmem', e, he', rfl⟩

theorem Holds.of_restore {before c : Context α} {a : α} (h : (restore before c).Holds a) : c.Holds a := by
  have hpopped : ∀ (n : Nat) (c : Context α), (popFrames n c).Holds a → c.Holds a := by
    intro n
    induction n with
    | zero => exact fun _ h => h
    | succ n ih => exact fun c h => (ih _ h).of_popFrame
  exact hpopped _ _ h

end Context

/-! ### Templates and sections -/

theorem renderVisible_alike {name : String} {render : Action → Execution σ α}
    (h : ∀ a, T a.compiled.modelType → Alike (Scene.Like T H) (render a)) :
    Alike (Scene.Like T H) (renderVisible name render) := by
  have hhide : ∀ (s s' : Scene σ) frame, Scene.Like T H s s' →
      Scene.Like T H ⟨s.context.hide frame, s.host⟩ ⟨s'.context.hide frame, s'.host⟩ :=
    fun s s' frame hs => ⟨by rw [hs.context], hs.types, hs.host⟩
  refine .of_run fun s s' hs => ?_
  cases hentry : s.context.visibleEntry? name with
  | none =>
    rw [renderVisible_none render hentry, renderVisible_none render (hs.context ▸ hentry)]
    exact ⟨rfl, hs⟩
  | some e =>
    have htype := hs.types _ (Context.holds_of_visibleEntry? hentry)
    obtain ⟨hsame, hleft⟩ := (h _ htype).run (hhide s s' e.frame hs)
    have hcontext := congr (congrArg Context.restoreCeilings hs.context) hleft.context
    rw [renderVisible_some render hentry, renderVisible_some render (hs.context ▸ hentry)]
    exact ⟨congrArg (Except.map some) hsame, hcontext, hleft.types, hleft.host⟩

section
variable {host : Host σ} (hdynamic : T .dynamic) (hhost : host.Alike T H)
include hdynamic hhost

theorem Action.renderWith_alike {a : Action} (ha : T a.compiled.modelType) {renderSection : String → Execution σ (Option String)}
    (hsections : ∀ name, Alike (Scene.Like T H) (renderSection name)) :
    Alike (Scene.Like T H) (a.renderWith host renderSection) := by
  unfold renderWith
  split
  · exact .throw _
  · exact Machine.output_alike ⟨hdynamic, ha, hhost, hsections⟩ _ _

theorem renderSectionTo_alike (depth : Nat) (name : String) : Alike (Scene.Like T H) (renderSectionTo host depth name) := by
  induction depth generalizing name with
  | zero => exact renderVisible_alike fun _ _ => .throw _
  | succ depth ih => exact renderVisible_alike fun a ha => a.renderWith_alike hdynamic hhost ha ih

/-- The execution of a template does the same in scenes that are alike. -/
theorem CompiledTemplate.execute_alike {t : CompiledTemplate} (ht : T t.modelType) (model : Json) :
    Alike (Scene.Like T H) (t.execute model host) := by
  refine Alike.get (·.context.depth)
    (fun depth => (⟨t, model, host, renderSectionTo host depth⟩ : Machine σ).output [] t.module.body)
    (fun _ => rfl) (fun s s' hs => by rw [hs.context]) fun depth => ?_
  exact Machine.output_alike ⟨hdynamic, ht, hhost, renderSectionTo_alike hdynamic hhost depth⟩ _ _

end

theorem inNewFrame_alike {x : Execution σ α} (h : Alike (Scene.Like T H) x) : Alike (Scene.Like T H) (inNewFrame x) := by
  have hpush : ∀ s s' : Scene σ, Scene.Like T H s s' →
      Scene.Like T H ⟨s.context.pushFrame, s.host⟩ ⟨s'.context.pushFrame, s'.host⟩ :=
    fun s s' hs => ⟨by rw [hs.context], hs.types, hs.host⟩
  refine ⟨fun s s' hs => h.same _ _ (hpush s s' hs), fun s s' hs => ?_⟩
  have hleft := h.left _ _ (hpush s s' hs)
  have hcontext := congr (congrArg Context.restore hs.context) hleft.context
  exact ⟨hcontext, fun a ha => hleft.types a ha.of_restore, hleft.host⟩

theorem withBody_alike {b : Body} {x : Execution σ α} (h : Alike (Scene.Like T H) x) :
    Alike (Scene.Like T H) (withBody b x) := by
  have hpush : ∀ s s' : Scene σ, Scene.Like T H s s' →
      Scene.Like T H { s with context := s.context.pushBody b } { s' with context := s'.context.pushBody b } :=
    fun s s' hs => ⟨by rw [hs.context], hs.types, hs.host⟩
  refine .of_run fun s s' hs => ?_
  obtain ⟨hsame, hcontext, htypes, hhost⟩ := h.run (hpush s s' hs)
  unfold withBody Context.popBody?
  generalize x { s with context := s.context.pushBody b } = r at hsame hcontext htypes hhost ⊢
  generalize x { s' with context := s'.context.pushBody b } = r' at hsame hcontext hhost ⊢
  obtain ⟨result, c, host⟩ := r
  obtain ⟨result', c', host'⟩ := r'
  dsimp only at hsame hcontext htypes hhost ⊢
  subst hcontext
  -- Whether a body is there to take off is the same for both, since they leave one context.
  cases c.bodies with
  | nil => exact ⟨rfl, rfl, htypes, hhost⟩
  | cons => exact ⟨hsame, rfl, htypes, hhost⟩

end Stencil
