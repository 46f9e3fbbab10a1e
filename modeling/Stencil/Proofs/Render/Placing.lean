import Stencil.Ir.Erasure
import Stencil.Proofs.Render.Registering

/-! What the places in a module are for.

Code keeps the places of its statements for its failures alone. Without places it does the same, in the same scene: it gives
the same, or fails for the same reason, and registers the same sections, which are without places then. -/

namespace Stencil

open Ir (Expr Stmt Branch)

variable {σ α β ε ε' : Type}

/-! ### Contexts with other actions -/

namespace Entry

/-- The entry with its action changed. -/
def map (f : α → β) (e : Entry α) : Entry β := ⟨e.frame, f e.action⟩

end Entry

namespace Context

variable (f : α → β)

/-- The context with its actions changed. -/
def map (c : Context α) : Context β :=
  { c with sections := c.sections.map fun s => (s.1, s.2.map (Entry.map f)) }

theorem addEntry_map (name : String) (e : Entry α) (sections : List (String × List (Entry α))) :
    addEntry name (e.map f) (sections.map fun s => (s.1, s.2.map (Entry.map f))) =
      (addEntry name e sections).map fun s => (s.1, s.2.map (Entry.map f)) := by
  induction sections with
  | nil => rfl
  | cons s rest ih =>
    obtain ⟨n, es⟩ := s
    rw [List.map_cons, addEntry, addEntry, ih]
    split
    · rfl
    · split <;> rfl

theorem define_map (c : Context α) (name : String) (a : α) :
    (c.map f).define name (f a) = (c.define name a).map (Context.map f) := by
  unfold define
  split
  · rfl
  · show (if (c.frames.headD []).contains name then _ else _) =
      Except.map _ (if (c.frames.headD []).contains name then _ else _)
    split
    · rfl
    · have hadd := addEntry_map f name ⟨c.depth - 1, a⟩ c.sections
      exact congrArg (fun sections => Except.ok { c.map f with
        frames := Text.insertSorted name (c.frames.headD []) :: c.frames.tail, sections }) hadd

theorem visibleEntry?_map (c : Context α) (name : String) :
    Context.visibleEntry? (c.map f) name = (c.visibleEntry? name).map (Entry.map f) := by
  have hentries : (c.map f).entries name = (c.entries name).map (Entry.map f) := by
    rw [entries, entries, map, List.find?_map, Option.map_map]
    change (Option.map _ (c.sections.find? fun s : String × List (Entry α) => s.1 == name)).getD [] = _
    cases c.sections.find? (·.1 == name) <;> rfl
  rw [Context.visibleEntry?, hentries, List.find?_map]
  rfl

theorem isDefined_map (c : Context α) (name : String) : (c.map f).isDefined name = c.isDefined name := by
  rw [isDefined, visibleEntry?_map, Option.isSome_map]
  rfl

end Context

/-! ### Everything without places -/

/-- The program without places. -/
def Program.erasePlaces (p : Program) : Program := { p with module := p.module.erasePlaces }

/-- The template without places, and without what else its code does not see. -/
def CompiledTemplate.erasePlaces (t : CompiledTemplate) : CompiledTemplate where
  template := t.template
  className := t.className
  modelType := t.modelType
  program := t.program.erasePlaces

/-- The section without places. -/
def Action.erasePlaces (a : Action) : Action := { a with compiled := a.compiled.erasePlaces }

theorem Action.section_erasePlaces (a : Action) : a.erasePlaces.section? = a.section?.map Ir.Section.erasePlaces :=
  List.getElem?_map

theorem Action.name_erasePlaces (a : Action) : a.erasePlaces.name = a.name := by
  rw [name, name, section_erasePlaces]
  cases a.section? <;> rfl

/-- The scene with sections without places. -/
def Scene.erasePlaces (s : Scene σ) : Scene σ := ⟨s.context.map Action.erasePlaces, s.host⟩

/-- The failure without its place in a template. -/
def Halt.erasePlaces : Halt → Halt
  | .error (.execution e) => .error (.execution { e with pos := none })
  | h => h

def Fault.erasePlaces : Fault → Fault
  | .cause c => .cause c
  | .nested h => .nested h.erasePlaces

/-- The host whose failures have no places. -/
def Host.erasePlaces (host : Host σ) : Host σ where
  embed key modelType model s :=
    let (answer, s') := host.embed key modelType model s
    (answer.mapError Halt.erasePlaces, s')

/-- Without places, the second computation does what the first one does. -/
def Unplaced (e : ε → ε) (x y : ExceptT ε (StateM (Scene σ)) α) : Prop :=
  ∀ s, y s.erasePlaces = ((x s).1.mapError e, (x s).2.erasePlaces)

namespace Unplaced

variable {e : ε → ε}

theorem pure (a : α) : Unplaced e (pure a : ExceptT ε (StateM (Scene σ)) α) (pure a) := fun _ => rfl

theorem throw (c : ε) : Unplaced e (throw c : ExceptT ε (StateM (Scene σ)) α) (throw (e c)) := fun _ => rfl

theorem bind {x y : ExceptT ε (StateM (Scene σ)) α} {f g : α → ExceptT ε (StateM (Scene σ)) β} (hx : Unplaced e x y)
    (hf : ∀ a, Unplaced e (f a) (g a)) : Unplaced e (x >>= f) (y >>= g) := by
  intro s
  rw [bind_run, bind_run, hx s]
  cases (x s).1 with
  | error c => rfl
  | ok a => exact hf a _

/-- A computation may go on from a part of the scene that has no places. -/
theorem get {γ : Type} {f g : Scene σ → ExceptT ε (StateM (Scene σ)) α} (part : Scene σ → γ)
    (h : γ → ExceptT ε (StateM (Scene σ)) α) (h' : γ → ExceptT ε (StateM (Scene σ)) α) (hf : ∀ s, f s = h (part s))
    (hg : ∀ s, g s = h' (part s)) (hpart : ∀ s, part s.erasePlaces = part s) (hh : ∀ c, Unplaced e (h c) (h' c)) :
    Unplaced e (MonadState.get >>= f) (MonadState.get >>= g) := by
  intro s
  show g s.erasePlaces s.erasePlaces = ((f s s).1.mapError e, (f s s).2.erasePlaces)
  rw [hf, hg, hpart]
  exact hh _ s

theorem adapt {e' : ε' → ε'} {f f' : ε → ε'} {x y : ExceptT ε (StateM (Scene σ)) α} (hx : Unplaced e x y)
    (hf : ∀ c, f' (e c) = e' (f c)) : Unplaced e' (ExceptT.adapt f x) (ExceptT.adapt f' y) := by
  intro s
  show ((y s.erasePlaces).1.mapError f', (y s.erasePlaces).2) = (((x s).1.mapError f).mapError e', (x s).2.erasePlaces)
  rw [hx s]
  cases (x s).1 with
  | error c => exact congrArg (fun c => (Except.error c, (x s).2.erasePlaces)) (hf c)
  | ok a => rfl

theorem mapM {γ : Type} {f g : γ → ExceptT ε (StateM (Scene σ)) α} (hf : ∀ x, Unplaced e (f x) (g x)) (xs : List γ) :
    Unplaced e (xs.mapM f) (xs.mapM g) := by
  induction xs with
  | nil =>
    rw [List.mapM_nil, List.mapM_nil]
    exact pure _
  | cons x xs ih =>
    rw [List.mapM_cons, List.mapM_cons]
    exact (hf x).bind fun _ => ih.bind fun _ => pure _

end Unplaced

/-- An execution, or an evaluation, without places. -/
abbrev Execution.Unplaced (x y : Execution σ α) : Prop := Stencil.Unplaced Halt.erasePlaces x y

abbrev Evaluation.Unplaced (x y : Evaluation σ α) : Prop := Stencil.Unplaced Fault.erasePlaces x y

/-! ### Machines -/

/-- A machine without places: its code has none, and the sections that it renders have none. -/
structure Machine.Unplaced (m m' : Machine σ) : Prop where
  compiled : m'.compiled = m.compiled.erasePlaces
  model : m'.model = m.model
  host : m'.host = m.host.erasePlaces
  sections : ∀ name, (m.renderSection name).Unplaced (m'.renderSection name)

theorem Host.partial_unplaced (host : Host σ) (key : String) (modelType : ModelType) (v : Json) :
    (host.partial key modelType v).Unplaced (host.erasePlaces.partial key modelType v) := fun _ => rfl

namespace Machine

variable {m m' : Machine σ}

/-! ### Expressions -/

theorem need_unplaced (v : Option α) (c : ExecutionCause) :
    (need v c : Evaluation σ α).Unplaced (need v c : Evaluation σ α) := by
  cases v with
  | none => exact .throw _
  | some a => exact .pure a

theorem textArg_unplaced (b : Ir.Builtin) (what : String) (v : Option Json) :
    (textArg b what v : Evaluation σ String).Unplaced (textArg b what v : Evaluation σ String) := by
  unfold textArg
  split
  · exact .pure _
  · exact .throw _

theorem callBuiltin_unplaced (hm : m.Unplaced m') (b : Ir.Builtin) (args : List Json) :
    (m.callBuiltin b args).Unplaced (m'.callBuiltin b args) := by
  cases b with
  | renderBody =>
    exact .get (·.context.bodies.head?) (fun body => need body .bodyUnavailable >>= fun body => pure (.markup body.content))
      (fun body => need body .bodyUnavailable >>= fun body => pure (.markup body.content)) (fun _ => rfl) (fun _ => rfl)
      (fun _ => rfl) fun body => (need_unplaced _ _).bind fun _ => .pure _
  | isSectionDefined =>
    refine (textArg_unplaced _ _ _).bind fun name => ?_
    exact .get (·.context.isDefined name) (fun b => pure (.value (.bool b))) (fun b => pure (.value (.bool b)))
      (fun _ => rfl) (fun _ => rfl) (fun s => s.context.isDefined_map Action.erasePlaces name) fun _ => .pure _
  | renderSection =>
    refine (textArg_unplaced _ _ _).bind fun name => ?_
    refine Unplaced.bind ((hm.sections name).adapt fun _ => rfl) fun text => ?_
    cases text with
    | some text => exact .pure _
    | none =>
      dsimp only
      split
      · exact .throw _
      · exact .pure _
  | embed =>
    refine (textArg_unplaced _ _ _).bind fun key => ?_
    dsimp only
    rw [hm.compiled, hm.model, hm.host]
    cases args.tail.head? with
    | some model => exact Unplaced.bind ((m.host.partial_unplaced key _ model).adapt fun _ => rfl) fun _ => .pure _
    | none => exact Unplaced.bind ((m.host.partial_unplaced key _ m.model).adapt fun _ => rfl) fun _ => .pure _
  | raw => exact (need_unplaced _ _).bind fun _ => .pure _

theorem callHelper_unplaced (hm : m.Unplaced m') (slot : Nat) (h : Helper) (args : List Json) :
    (m.callHelper slot h args).Unplaced (m'.callHelper slot h args) := by
  have hname : m'.helperName slot = m.helperName slot := by
    rw [helperName, hm.compiled]
    rfl
  unfold callHelper
  rw [hname]
  split
  · split
    · exact (need_unplaced _ _).bind fun _ => .pure _
    · exact .pure _
  · exact .throw _
  · exact .throw _

/-- How template functions are called without places. -/
inductive CallsUnplaced : Caller σ → Caller σ → Prop
  | none : CallsUnplaced none none
  | some {invoke invoke' : Locals → Expr → Evaluation σ Evaluated}
      (h : ∀ locals e, (invoke locals e).Unplaced (invoke' locals e)) : CallsUnplaced (some invoke) (some invoke')

mutual

theorem eval_unplaced (hm : m.Unplaced m') {caller caller' : Caller σ} (hcaller : CallsUnplaced caller caller')
    (locals : Locals) : (e : Expr) → (m.eval caller locals e).Unplaced (m'.eval caller' locals e)
  | .literal v => .pure _
  | .model => by
    rw [eval, eval, hm.model]
    exact .pure _
  | .var name => (need_unplaced _ _).bind fun _ => .pure _
  | .member target name => by
    refine (eval_unplaced hm hcaller locals target).bind fun v => ?_
    exact (need_unplaced _ _).bind fun _ => .pure _
  | .call (.builtin b) args => (evalAll_unplaced hm hcaller locals args).bind fun vs => callBuiltin_unplaced hm b vs
  | .call (.function index) args => by
    -- The function has another body, but only in its places.
    have hfunction : m'.compiled.module.functions[index]? =
        (m.compiled.module.functions[index]?).map Ir.Function.erasePlaces := by
      rw [hm.compiled]
      exact List.getElem?_map
    rw [eval, eval, hfunction]
    cases hcaller with
    | none => exact .throw _
    | @some invoke invoke' hinvoke =>
      cases m.compiled.module.functions[index]? with
      | none => exact .throw _
      | some f =>
        show (m.evalAll (some invoke) locals args >>= fun vs => invoke (bindParams f.params vs) f.body).Unplaced
          (m'.evalAll (some invoke') locals args >>= fun vs => invoke' (bindParams f.params vs) f.body)
        exact (evalAll_unplaced hm (.some hinvoke) locals args).bind fun vs => hinvoke _ _
  | .call (.helper slot) args => by
    rw [eval, eval, show m'.compiled.program.helpers = m.compiled.program.helpers by rw [hm.compiled]; rfl]
    refine (need_unplaced _ _).bind fun h => ?_
    exact (evalAll_unplaced hm hcaller locals args).bind fun vs => callHelper_unplaced hm slot h vs
  | .not operand => (eval_unplaced hm hcaller locals operand).bind fun _ => .pure _
  | .binary op lhs rhs => by
    have hr := eval_unplaced hm hcaller locals rhs
    refine (eval_unplaced hm hcaller locals lhs).bind fun a => ?_
    cases op with
    | and =>
      dsimp only
      split
      · exact hr.bind fun _ => .pure _
      · exact .pure _
    | or =>
      dsimp only
      split
      · exact .pure _
      · exact hr.bind fun _ => .pure _
    | eq => exact hr.bind fun _ => .pure _
    | ne => exact hr.bind fun _ => .pure _

theorem evalAll_unplaced (hm : m.Unplaced m') {caller caller' : Caller σ} (hcaller : CallsUnplaced caller caller')
    (locals : Locals) : (es : List Expr) → (m.evalAll caller locals es).Unplaced (m'.evalAll caller' locals es)
  | [] => .pure _
  | e :: es =>
    (eval_unplaced hm hcaller locals e).bind fun _ => (evalAll_unplaced hm hcaller locals es).bind fun _ => .pure _

end

theorem evalTo_unplaced (hm : m.Unplaced m') (depth : Nat) (locals : Locals) (e : Expr) :
    (m.evalTo depth locals e).Unplaced (m'.evalTo depth locals e) := by
  induction depth generalizing locals e with
  | zero => exact eval_unplaced hm .none locals e
  | succ depth ih => exact eval_unplaced hm (.some ih) locals e

/-! ### Statements -/

/-- A failure at a place is one at none. -/
theorem at_unplaced (hm : m.Unplaced m') {x y : Evaluation σ α} (h : x.Unplaced y) (pos : Option SourcePos) :
    (x.at m.compiled.template pos).Unplaced (y.at m'.compiled.template none) := by
  rw [show m'.compiled.template = m.compiled.template by rw [hm.compiled]; rfl]
  refine h.adapt fun c => ?_
  cases c <;> rfl

theorem evalAt_unplaced (hm : m.Unplaced m') (pos : Option SourcePos) (locals : Locals) (e : Expr) :
    (m.evalAt pos locals e).Unplaced (m'.evalAt none locals e) :=
  at_unplaced hm (evalTo_unplaced hm maxCallDepth locals e) pos

theorem register_unplaced (hm : m.Unplaced m') (index : Nat) (locals : Locals) :
    (m.register index locals).Unplaced (m'.register index locals) := by
  intro s
  have haction : m'.action index locals = (m.action index locals).erasePlaces := by
    rw [action, hm.compiled, hm.model]
    rfl
  have hdefine := s.context.define_map Action.erasePlaces (m.action index locals).name (m.action index locals)
  rw [register_eq, register_eq, haction, Action.name_erasePlaces,
    show s.erasePlaces.context = s.context.map Action.erasePlaces from rfl, hdefine, hm.compiled]
  cases s.context.define (m.action index locals).name (m.action index locals) <;> rfl

mutual

/-- Without places, a statement does the same. -/
theorem exec_unplaced (hm : m.Unplaced m') (locals : Locals) : (s : Stmt) →
    (m.exec locals s).Unplaced (m'.exec locals s.erasePlaces)
  | .write text => .pure _
  | .emit e pos => by
    refine (evalAt_unplaced hm pos locals e).bind fun v => ?_
    refine Unplaced.bind (at_unplaced hm ?_ pos) fun piece => .pure _
    cases v with
    | markup text => exact .pure _
    | value v => exact (need_unplaced _ _).bind fun _ => .pure _
  | .bind name e pos => (evalAt_unplaced hm pos locals e).bind fun _ => .pure _
  | .ifElse branches none pos => by
    rw [Stmt.erasePlaces, exec, exec]
    refine (execBranches_unplaced hm locals pos branches).bind fun r => ?_
    cases r <;> exact .pure _
  | .ifElse branches (some body) pos => by
    rw [Stmt.erasePlaces, exec, exec]
    refine (execBranches_unplaced hm locals pos branches).bind fun r => ?_
    cases r with
    | some pieces => exact .pure _
    | none => exact (execAll_unplaced hm locals body).bind fun _ => .pure _
  | .forEach name source body pos => by
    refine (evalAt_unplaced hm pos locals source).bind fun v => ?_
    refine Unplaced.bind (at_unplaced hm (need_unplaced _ _) pos) fun vs => ?_
    exact (Unplaced.mapM (fun v => execAll_unplaced hm ((name, v) :: locals) body) vs).bind fun _ => .pure _
  | .defineSection index => (register_unplaced hm index locals).bind fun _ => .pure _

theorem execAll_unplaced (hm : m.Unplaced m') (locals : Locals) : (ss : List Stmt) →
    (m.execAll locals ss).Unplaced (m'.execAll locals (Stmt.erasePlacesAll ss))
  | [] => .pure _
  | s :: ss => (exec_unplaced hm locals s).bind fun r => (execAll_unplaced hm r.1 ss).bind fun _ => .pure _

theorem execBranches_unplaced (hm : m.Unplaced m') (locals : Locals) (pos : Option SourcePos) : (bs : List Branch) →
    (m.execBranches locals pos bs).Unplaced (m'.execBranches locals none (Branch.erasePlacesAll bs))
  | [] => .pure _
  | .mk cond body :: bs => by
    refine (evalAt_unplaced hm pos locals cond).bind fun v => ?_
    split
    · exact (execAll_unplaced hm locals body).bind fun _ => .pure _
    · exact execBranches_unplaced hm locals pos bs

end

theorem output_unplaced (hm : m.Unplaced m') (locals : Locals) (body : List Stmt) :
    (m.output locals body).Unplaced (m'.output locals (Stmt.erasePlacesAll body)) := by
  unfold output
  rw [show m'.compiled.program.encoding = m.compiled.program.encoding by rw [hm.compiled]; rfl]
  exact (execAll_unplaced hm locals body).bind fun _ => .pure _

end Machine

/-! ### Templates and sections -/

theorem renderVisible_unplaced {name : String} {render render' : Action → Execution σ α}
    (h : ∀ a, (render a).Unplaced (render' a.erasePlaces)) :
    (renderVisible name render).Unplaced (renderVisible name render') := by
  intro s
  have hentry := s.context.visibleEntry?_map Action.erasePlaces name
  rcases he : s.context.visibleEntry? name with _ | e
  · rw [he] at hentry
    rw [renderVisible_none render he, renderVisible_none render' hentry]
    rfl
  · rw [he] at hentry
    rw [renderVisible_some render he, renderVisible_some render' hentry]
    have hrun := h e.action ⟨s.context.hide e.frame, s.host⟩
    let after := render' e.action.erasePlaces (Scene.erasePlaces ⟨s.context.hide e.frame, s.host⟩)
    show (after.1.map some, (⟨s.erasePlaces.context.restoreCeilings after.2.context, after.2.host⟩ : Scene σ)) = _
    rw [show after = _ from hrun]
    rcases render e.action ⟨s.context.hide e.frame, s.host⟩ with ⟨_ | _, _⟩ <;> rfl

theorem Action.renderWith_unplaced (a : Action) (host : Host σ)
    {renderSection renderSection' : String → Execution σ (Option String)}
    (h : ∀ name, (renderSection name).Unplaced (renderSection' name)) :
    (a.renderWith host renderSection).Unplaced (a.erasePlaces.renderWith host.erasePlaces renderSection') := by
  have hm : (⟨a.compiled, a.model, host, renderSection⟩ : Machine σ).Unplaced
      ⟨a.compiled.erasePlaces, a.model, host.erasePlaces, renderSection'⟩ := ⟨rfl, rfl, rfl, h⟩
  unfold renderWith
  rw [section_erasePlaces]
  cases a.section? with
  | none => exact .throw _
  | some s => exact Machine.output_unplaced hm a.locals s.body

theorem renderSectionTo_unplaced (host : Host σ) (depth : Nat) (name : String) :
    (renderSectionTo host depth name).Unplaced (renderSectionTo host.erasePlaces depth name) := by
  induction depth generalizing name with
  | zero => exact renderVisible_unplaced fun _ => .throw _
  | succ depth ih => exact renderVisible_unplaced fun a => a.renderWith_unplaced host ih

/-- Without places, a template does the same. -/
theorem CompiledTemplate.execute_unplaced (t : CompiledTemplate) (model : Json) (host : Host σ) :
    (t.execute model host).Unplaced (t.erasePlaces.execute model host.erasePlaces) :=
  .get (·.context.depth) (fun depth => (⟨t, model, host, renderSectionTo host depth⟩ : Machine σ).output [] t.module.body)
    (fun depth => (⟨t.erasePlaces, model, host.erasePlaces, renderSectionTo host.erasePlaces depth⟩ : Machine σ).output []
      t.erasePlaces.module.body)
    (fun _ => rfl) (fun _ => rfl) (fun _ => rfl)
    fun depth => by
      have hm : (⟨t, model, host, renderSectionTo host depth⟩ : Machine σ).Unplaced
          ⟨t.erasePlaces, model, host.erasePlaces, renderSectionTo host.erasePlaces depth⟩ :=
        ⟨rfl, rfl, rfl, renderSectionTo_unplaced host depth⟩
      exact Machine.output_unplaced hm [] t.module.body

end Stencil
