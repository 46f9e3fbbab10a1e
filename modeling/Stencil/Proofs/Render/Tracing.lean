import Stencil.Proofs.Render.Registering

/-! What happens while code runs.

A run calls builtins, each of them in the scene that it has come to, and registers sections. Its trace tells these events
in their order; it follows the run from value to value, and ends where the run fails. A rule for each way to put
computations together says what holds all along a trace, given the sections that have been registered so far. -/

namespace Stencil

open Ir (Expr Stmt Branch Builtin)

variable {σ α β ε ε' : Type}

/-! ### Events -/

/-- What a run does that shows outside of it, or that depends on what is outside. -/
inductive Event (σ : Type)
  /-- A builtin is called with the values of its arguments. -/
  | called (b : Builtin) (args : List Json) (scene : Scene σ)
  | registered (a : Action)

/-- The sections that are registered, latest first. -/
def registrations (events : List (Event σ)) : List Action :=
  (events.filterMap fun
    | .registered a => some a
    | .called .. => none).reverse

@[simp] theorem registrations_nil : registrations ([] : List (Event σ)) = [] := rfl

@[simp] theorem registrations_append (first rest : List (Event σ)) :
    registrations (first ++ rest) = registrations rest ++ registrations first := by
  simp [registrations]

/-- The events of a computation that starts in a scene. -/
abbrev Trace (σ : Type) := Scene σ → List (Event σ)

namespace Trace

/-- Nothing happens. -/
def silent : Trace σ := fun _ => []

/-- The events of what goes on from a value that is needed. -/
def given (v : Option α) (t : α → Trace σ) : Trace σ := v.elim silent t

/-- The events of a computation, and then those of what goes on from its value. -/
def andThen (first : Trace σ) (x : ExceptT ε (StateM (Scene σ)) α) (rest : α → Trace σ) : Trace σ := fun s =>
  first s ++ match (x s).1 with
    | .ok a => rest a (x s).2
    | .error _ => []

/-- The events of computations for the items of a list. -/
def each (x : α → ExceptT ε (StateM (Scene σ)) β) (t : α → Trace σ) : List α → Trace σ
  | [] => silent
  | a :: as => (t a).andThen (x a) fun _ => each x t as

theorem andThen_silent (t : Trace σ) (x : ExceptT ε (StateM (Scene σ)) α) : t.andThen x (fun _ => silent) = t := by
  funext s
  unfold andThen silent
  cases (x s).1 <;> exact List.append_nil _

end Trace

namespace Ir

mutual

/-- Running the statement can come to registering a section. -/
def Stmt.registers : Stmt → Bool
  | .write _ | .emit .. | .bind .. => false
  | .ifElse branches none _ => Branch.registersAny branches
  | .ifElse branches (some body) _ => Branch.registersAny branches || Stmt.registersAny body
  | .forEach _ _ body _ => Stmt.registersAny body
  | .defineSection _ => true

/-- One of the statements can come to registering a section. -/
def Stmt.registersAny : List Stmt → Bool
  | [] => false
  | s :: ss => s.registers || Stmt.registersAny ss

/-- One of the branches can come to registering a section. -/
def Branch.registersAny : List Branch → Bool
  | [] => false
  | .mk _ body :: bs => Stmt.registersAny body || Branch.registersAny bs

end

/-- The sections of the module register no sections. -/
def Module.Flat (m : Module) : Prop := ∀ s ∈ m.sections, Stmt.registersAny s.body = false

end Ir

namespace Machine

mutual

/-- The events of the evaluation of an expression, given those of the functions that are called. -/
def calls (m : Machine σ) (caller : Caller σ) (inner : Locals → Expr → Trace σ) (locals : Locals) : Expr → Trace σ
  | .literal _ | .model | .var _ => .silent
  | .member target _ => m.calls caller inner locals target
  | .call (.builtin b) args =>
    (m.callsAll caller inner locals args).andThen (m.evalAll caller locals args) fun vs scene => [.called b vs scene]
  | .call (.function index) args =>
    .given caller fun _ => .given m.compiled.module.functions[index]? fun f =>
      (m.callsAll caller inner locals args).andThen (m.evalAll caller locals args) fun vs =>
        inner (bindParams f.params vs) f.body
  | .call (.helper slot) args =>
    .given m.compiled.program.helpers[slot]? fun _ => m.callsAll caller inner locals args
  | .not operand => m.calls caller inner locals operand
  | .binary op lhs rhs =>
    (m.calls caller inner locals lhs).andThen (m.eval caller locals lhs) fun a =>
      match op with
      | .and => if a.toJson.truthy then m.calls caller inner locals rhs else .silent
      | .or => if a.toJson.truthy then .silent else m.calls caller inner locals rhs
      | .eq | .ne => m.calls caller inner locals rhs

/-- The events of the evaluation of expressions, from left to right. -/
def callsAll (m : Machine σ) (caller : Caller σ) (inner : Locals → Expr → Trace σ) (locals : Locals) :
    List Expr → Trace σ
  | [] => .silent
  | e :: es =>
    (m.calls caller inner locals e).andThen (m.eval caller locals e) fun _ => m.callsAll caller inner locals es

end

/-- The events of the evaluation of an expression in which template functions call each other to a depth. -/
def callsTo (m : Machine σ) : Nat → Locals → Expr → Trace σ
  | 0 => m.calls none fun _ _ => .silent
  | depth + 1 => m.calls (some (m.evalTo depth)) (m.callsTo depth)

mutual

/-- The events of the execution of a statement. -/
def events (m : Machine σ) (locals : Locals) : Stmt → Trace σ
  | .write _ => .silent
  | .emit e _ | .bind _ e _ => m.callsTo maxCallDepth locals e
  | .ifElse branches otherwise pos =>
    (m.eventsOfBranches locals pos branches).andThen (m.execBranches locals pos branches) fun
      | some _ => .silent
      | none => match otherwise with
        | some body => m.eventsAll locals body
        | none => .silent
  | .forEach name source body pos =>
    (m.callsTo maxCallDepth locals source).andThen (m.evalAt pos locals source) fun v =>
      .given v.toJson.items? <|
        Trace.each (fun v => m.execAll ((name, v) :: locals) body) fun v => m.eventsAll ((name, v) :: locals) body
  | .defineSection index => fun scene =>
    match scene.context.define (m.action index locals).name (m.action index locals) with
    | .ok _ => [.registered (m.action index locals)]
    | .error _ => []

/-- The events of the execution of statements in turn. -/
def eventsAll (m : Machine σ) (locals : Locals) : List Stmt → Trace σ
  | [] => .silent
  | s :: ss => (m.events locals s).andThen (m.exec locals s) fun r => m.eventsAll r.1 ss

/-- The events of the execution of the first branch whose condition holds. -/
def eventsOfBranches (m : Machine σ) (locals : Locals) (pos : Option SourcePos) : List Branch → Trace σ
  | [] => .silent
  | .mk cond body :: rest =>
    (m.callsTo maxCallDepth locals cond).andThen (m.evalAt pos locals cond) fun v =>
      if v.toJson.truthy then m.eventsAll locals body else m.eventsOfBranches locals pos rest

end

end Machine

/-! ### Rules -/

/-- With the trace of a computation, an invariant of the scene and of the sections that have been registered so far is kept
and holds at each call of a builtin; a call that fails makes the computation fail. -/
structure Traced (m : Machine σ) (F : Fault → ε → Prop) (Inv : List Action → Scene σ → Prop)
    (x : ExceptT ε (StateM (Scene σ)) α) (t : Trace σ) : Prop where
  kept : ∀ log s, Inv log s → Inv (registrations (t s) ++ log) (x s).2
  along : ∀ log s, Inv log s → ∀ pre b args scene post, t s = pre ++ .called b args scene :: post →
    Inv (registrations pre ++ log) scene
  fails : ∀ s b args scene f, .called b args scene ∈ t s → (m.callBuiltin b args scene).1 = .error f →
    ∃ e, F f e ∧ (x s).1 = .error e

namespace Traced

variable {m : Machine σ} {F : Fault → ε → Prop} {F' : Fault → ε' → Prop} {Inv : List Action → Scene σ → Prop}

theorem silent {x : ExceptT ε (StateM (Scene σ)) α} (h : ∀ log, Keeps (Inv log) (fun _ => True) (fun _ => True) x) :
    Traced m F Inv x .silent where
  kept log s hs := (h log).kept s hs
  along log s _ pre b args scene post h := by cases pre <;> cases h
  fails s b args scene f h := by cases h

theorem pure (a : α) : Traced m F Inv (pure a : ExceptT ε (StateM (Scene σ)) α) .silent := silent fun _ => .pure trivial

/-- What holds along a computation and along all that goes on from it holds along the whole. -/
theorem bind {x : ExceptT ε (StateM (Scene σ)) α} {f : α → ExceptT ε (StateM (Scene σ)) β} {t : Trace σ}
    {rest : α → Trace σ} (hx : Traced m F Inv x t) (hf : ∀ a, Traced m F Inv (f a) (rest a)) :
    Traced m F Inv (x >>= f) (t.andThen x rest) where
  kept log s hs := by
    have hkept := hx.kept log s hs
    rw [bind_run, Trace.andThen, registrations_append, List.append_assoc]
    cases (x s).1 with
    | error _ => exact hkept
    | ok a => exact (hf a).kept _ _ hkept
  along log s hs pre b args scene post heq := by
    have hkept := hx.kept log s hs
    rcases List.append_eq_append_iff.mp heq with ⟨mid, rfl, hrest⟩ | ⟨mid, hfirst, hmid⟩
    · -- The call happens after the computation.
      rw [registrations_append, List.append_assoc]
      cases ha : (x s).1 with
      | error _ =>
        rw [ha] at hrest
        cases mid <;> cases hrest
      | ok a =>
        rw [ha] at hrest
        exact (hf a).along _ _ hkept mid b args scene post hrest
    · cases mid with
      | cons _ mid =>
        -- The call happens in the computation.
        cases hmid
        exact hx.along log s hs pre b args scene mid hfirst
      | nil =>
        rw [List.append_nil] at hfirst
        subst hfirst
        cases ha : (x s).1 with
        | error _ =>
          rw [ha] at hmid
          cases hmid
        | ok a =>
          rw [ha] at hmid
          exact (hf a).along _ _ hkept [] b args scene post hmid.symm
  fails s b args scene g hmem hg := by
    rw [bind_run]
    rcases List.mem_append.mp hmem with hmem | hmem
    · obtain ⟨e, he, hfails⟩ := hx.fails s b args scene g hmem hg
      rw [hfails]
      exact ⟨e, he, rfl⟩
    · cases ha : (x s).1 with
      | error _ =>
        rw [ha] at hmem
        cases hmem
      | ok a =>
        rw [ha] at hmem
        exact (hf a).fails _ b args scene g hmem hg

/-- A computation may go on without events. -/
theorem before {x : ExceptT ε (StateM (Scene σ)) α} {f : α → ExceptT ε (StateM (Scene σ)) β} {t : Trace σ}
    (hx : Traced m F Inv x t) (hf : ∀ a log, Keeps (Inv log) (fun _ => True) (fun _ => True) (f a)) : Traced m F Inv (x >>= f) t := by
  have h := hx.bind fun a => silent (hf a)
  rwa [Trace.andThen_silent] at h

theorem adapt {g : ε → ε'} {x : ExceptT ε (StateM (Scene σ)) α} {t : Trace σ} (hx : Traced m F Inv x t)
    (hg : ∀ f e, F f e → F' f (g e)) : Traced m F' Inv (ExceptT.adapt g x) t where
  kept := hx.kept
  along := hx.along
  fails s b args scene f hmem hf := by
    obtain ⟨e, he, hfails⟩ := hx.fails s b args scene f hmem hf
    exact ⟨g e, hg f e he, congrArg (Except.mapError g) hfails⟩

theorem mapM {γ : Type} {f : γ → ExceptT ε (StateM (Scene σ)) α} {t : γ → Trace σ} (h : ∀ c, Traced m F Inv (f c) (t c))
    (cs : List γ) : Traced m F Inv (cs.mapM f) (.each f t cs) := by
  induction cs with
  | nil => exact pure []
  | cons c cs ih =>
    rw [List.mapM_cons]
    refine (h c).bind fun a => ?_
    exact ih.before fun _ _ => .pure trivial

/-- An invariant of the scene alone is kept as by any computation. -/
theorem keeps {I : Scene σ → Prop} {x : ExceptT ε (StateM (Scene σ)) α} {t : Trace σ} (h : Traced m F (fun _ => I) x t) :
    Keeps I (fun _ => True) (fun _ => True) x := ⟨fun s hs => h.kept [] s hs, fun _ _ _ _ => trivial, fun _ _ _ _ => trivial⟩

end Traced

/-! ### Code -/

namespace Machine

variable {m : Machine σ} {Inv : List Action → Scene σ → Prop}

theorem need_traced {F : Fault → Fault → Prop} {v : Option α} {c : ExecutionCause} {f : α → Evaluation σ β}
    {t : α → Trace σ} (h : ∀ a, v = some a → Traced m F Inv (f a) (t a)) :
    Traced m F Inv (need v c >>= f) (.given v t) := by
  cases v with
  | none => exact .silent fun _ => .throw trivial
  | some a => exact h a rfl

theorem need_kept {I : Scene σ → Prop} (v : Option α) (c : ExecutionCause) :
    Keeps I (fun _ => True) (fun _ => True) (need v c : Evaluation σ α) :=
  need_keeps (fun _ => trivial) fun _ _ => trivial

theorem builtin_traced (hm : ∀ log, m.Surrounded (Inv log) fun _ => True) (b : Builtin) (args : List Json) :
    Traced m Eq Inv (m.callBuiltin b args) (fun s => [.called b args s]) where
  kept log s hs := by
    have hcall : Keeps (Inv log) (fun _ => True) (fun _ => True) (m.callBuiltin b args) :=
      callBuiltin_keeps (hm log) (fun _ _ => trivial) fun _ _ => trivial
    exact hcall.kept s hs
  along log s hs pre b' args' scene post h := by
    cases pre with
    | nil =>
      cases h
      exact hs
    | cons _ pre => cases pre <;> cases h
  fails s b' args' scene f hmem hf := by
    cases List.mem_singleton.mp hmem
    exact ⟨f, rfl, hf⟩

theorem callHelper_kept {I : Scene σ → Prop} {slot : Nat} {h : Helper} (hh : m.compiled.program.helpers[slot]? = some h)
    (vs : List Json) : Keeps I (fun _ => True) (fun _ => True) (m.callHelper slot h vs) := by
  have hl : vs.length = (vs.map Expr.literal).length := (List.length_map _).symm
  exact callHelper_keeps hh hl fun f (_ : m.compiled.program.Fails m.model [] _ f) => trivial

mutual

theorem eval_traced (hm : ∀ log, m.Surrounded (Inv log) fun _ => True) {caller : Caller σ} {inner : Locals → Expr → Trace σ}
    (hcaller : ∀ invoke, caller = some invoke → ∀ locals e, Traced m Eq Inv (invoke locals e) (inner locals e))
    (locals : Locals) : (e : Expr) → Traced m Eq Inv (m.eval caller locals e) (m.calls caller inner locals e)
  | .literal v => .pure _
  | .model => .pure _
  | .var name => .silent fun _ => (need_kept _ _).bind fun _ _ => .pure trivial
  | .member target name =>
    (eval_traced hm hcaller locals target).before fun _ _ => (need_kept _ _).bind fun _ _ => .pure trivial
  | .call (.builtin b) args => (evalAll_traced hm hcaller locals args).bind fun vs => builtin_traced hm b vs
  | .call (.function index) args => by
    refine need_traced fun invoke hinvoke => need_traced fun f _ => ?_
    exact (evalAll_traced hm hcaller locals args).bind fun vs => hcaller invoke hinvoke _ _
  | .call (.helper slot) args => by
    refine need_traced fun h hh => ?_
    exact (evalAll_traced hm hcaller locals args).before fun vs _ => callHelper_kept hh vs
  | .not operand => (eval_traced hm hcaller locals operand).before fun _ _ => .pure trivial
  | .binary op lhs rhs => by
    -- The events of the second operand are those of the expression behind the first one, if it is evaluated.
    have hr : ∀ g : Evaluated → Evaluated, Traced m Eq Inv (m.eval caller locals rhs >>= fun v => pure (g v))
        (m.calls caller inner locals rhs) := fun g =>
      (eval_traced hm hcaller locals rhs).before fun _ _ => .pure trivial
    refine (eval_traced hm hcaller locals lhs).bind fun a => ?_
    cases op with
    | and =>
      dsimp only
      split
      · exact hr _
      · exact .pure _
    | or =>
      dsimp only
      split
      · exact .pure _
      · exact hr _
    | eq => exact hr _
    | ne => exact hr _

theorem evalAll_traced (hm : ∀ log, m.Surrounded (Inv log) fun _ => True) {caller : Caller σ}
    {inner : Locals → Expr → Trace σ}
    (hcaller : ∀ invoke, caller = some invoke → ∀ locals e, Traced m Eq Inv (invoke locals e) (inner locals e))
    (locals : Locals) : (es : List Expr) → Traced m Eq Inv (m.evalAll caller locals es) (m.callsAll caller inner locals es)
  | [] => .pure _
  | e :: es => by
    refine (eval_traced hm hcaller locals e).bind fun v => ?_
    exact (evalAll_traced hm hcaller locals es).before fun _ _ => .pure trivial

end

theorem evalTo_traced (hm : ∀ log, m.Surrounded (Inv log) fun _ => True) (depth : Nat) (locals : Locals) (e : Expr) :
    Traced m Eq Inv (m.evalTo depth locals e) (m.callsTo depth locals e) := by
  induction depth generalizing locals e with
  | zero => exact eval_traced hm (fun _ h => by cases h) locals e
  | succ depth ih =>
    refine eval_traced hm (fun invoke h => ?_) locals e
    cases h
    exact ih

theorem at_traced {x : Evaluation σ α} {t : Trace σ} (hx : Traced m Eq Inv x t) (pos : Option SourcePos) :
    Traced m (Placed m.compiled.template) Inv (x.at m.compiled.template pos) t := by
  refine hx.adapt fun f e he => ?_
  subst he
  cases f with
  | cause c => exact .cause
  | nested h => exact .nested

theorem evalAt_traced (hm : ∀ log, m.Surrounded (Inv log) fun _ => True) (pos : Option SourcePos) (locals : Locals) (e : Expr) :
    Traced m (Placed m.compiled.template) Inv (m.evalAt pos locals e) (m.callsTo maxCallDepth locals e) :=
  at_traced (evalTo_traced hm maxCallDepth locals e) pos

theorem needAt_traced {v : Option α} {c : ExecutionCause} {pos : Option SourcePos} {f : α → Execution σ β} {t : α → Trace σ}
    (h : ∀ a, Traced m (Placed m.compiled.template) Inv (f a) (t a)) :
    Traced m (Placed m.compiled.template) Inv ((need v c).at m.compiled.template pos >>= f) (.given v t) := by
  cases v with
  | none => exact .silent fun _ => .throw trivial
  | some a => exact h a

theorem at_kept {I : Scene σ → Prop} {x : Evaluation σ α} (hx : Keeps I (fun _ => True) (fun _ => True) x) (template : String)
    (pos : Option SourcePos) : Keeps I (fun _ => True) (fun _ => True) (x.at template pos) :=
  hx.adapt fun _ _ => trivial

/-- Registering a section keeps the invariant of the sections that have been registered. -/
def KeptByRegistering (m : Machine σ) (Inv : List Action → Scene σ → Prop) : Prop :=
  ∀ log s index locals context, Inv log s →
    s.context.define (m.action index locals).name (m.action index locals) = .ok context →
    Inv (m.action index locals :: log) { s with context }

theorem events_defineSection (m : Machine σ) (index : Nat) (locals : Locals) (s : Scene σ) :
    m.events locals (.defineSection index) s =
      match s.context.define (m.action index locals).name (m.action index locals) with
      | .ok _ => [.registered (m.action index locals)]
      | .error _ => [] := rfl

theorem register_traced (h : m.KeptByRegistering Inv) (index : Nat) (locals : Locals) :
    Traced m (Placed m.compiled.template) Inv (m.exec locals (.defineSection index)) (m.events locals (.defineSection index)) := by
  constructor
  · intro log s hs
    rw [exec_defineSection, events_defineSection]
    cases hd : s.context.define (m.action index locals).name (m.action index locals) with
    | error c => exact hs
    | ok context => exact h log s index locals context hs hd
  · intro log s hs pre b args scene post heq
    rw [events_defineSection] at heq
    split at heq
    · cases pre with
      | nil => cases heq
      | cons _ pre => cases pre <;> cases heq
    · cases pre <;> cases heq
  · intro s b args scene f hmem
    rw [events_defineSection] at hmem
    split at hmem
    · cases List.mem_singleton.mp hmem
    · cases hmem

mutual

theorem exec_traced (hm : ∀ log, m.Surrounded (Inv log) fun _ => True) (locals : Locals) :
    (s : Stmt) → (s.registers = true → m.KeptByRegistering Inv) →
    Traced m (Placed m.compiled.template) Inv (m.exec locals s) (m.events locals s)
  | .write text, _ => .pure _
  | .emit e pos, _ => by
    refine (evalAt_traced hm pos locals e).before fun v _ => ?_
    refine Keeps.bind (P := fun _ => True) (at_kept ?_ _ _) fun _ _ => .pure trivial
    cases v with
    | markup text => exact .pure trivial
    | value v => exact (need_kept _ _).bind fun _ _ => .pure trivial
  | .bind name e pos, _ => (evalAt_traced hm pos locals e).before fun _ _ => .pure trivial
  | .ifElse branches none pos, h => by
    rw [exec.eq_def, events.eq_def]
    refine (execBranches_traced hm locals pos branches h).bind fun pieces => ?_
    cases pieces <;> exact .pure _
  | .ifElse branches (some body) pos, h => by
    rw [exec.eq_def, events.eq_def]
    have hbranches := execBranches_traced hm locals pos branches fun hr => h (Bool.or_eq_true_iff.mpr (.inl hr))
    refine hbranches.bind fun pieces => ?_
    cases pieces with
    | some pieces => exact .pure _
    | none =>
      have hbody := execAll_traced hm locals body fun hr => h (Bool.or_eq_true_iff.mpr (.inr hr))
      exact hbody.before fun _ _ => .pure trivial
  | .forEach name source body pos, h => by
    refine (evalAt_traced hm pos locals source).bind fun v => needAt_traced fun vs => ?_
    exact (Traced.mapM (fun v => execAll_traced hm ((name, v) :: locals) body h) vs).before fun _ _ => .pure trivial
  | .defineSection index, h => register_traced (h rfl) index locals

theorem execAll_traced (hm : ∀ log, m.Surrounded (Inv log) fun _ => True) (locals : Locals) :
    (ss : List Stmt) → (Stmt.registersAny ss = true → m.KeptByRegistering Inv) →
    Traced m (Placed m.compiled.template) Inv (m.execAll locals ss) (m.eventsAll locals ss)
  | [], _ => .pure _
  | s :: ss, h => by
    refine (exec_traced hm locals s fun hr => h (Bool.or_eq_true_iff.mpr (.inl hr))).bind fun r => ?_
    have hrest := execAll_traced hm r.1 ss fun hr => h (Bool.or_eq_true_iff.mpr (.inr hr))
    exact hrest.before fun _ _ => .pure trivial

theorem execBranches_traced (hm : ∀ log, m.Surrounded (Inv log) fun _ => True) (locals : Locals) (pos : Option SourcePos) :
    (bs : List Branch) → (Branch.registersAny bs = true → m.KeptByRegistering Inv) →
    Traced m (Placed m.compiled.template) Inv (m.execBranches locals pos bs) (m.eventsOfBranches locals pos bs)
  | [], _ => .pure _
  | .mk cond body :: bs, h => by
    refine (evalAt_traced hm pos locals cond).bind fun v => ?_
    split
    · have hbody := execAll_traced hm locals body fun hr => h (Bool.or_eq_true_iff.mpr (.inl hr))
      exact hbody.before fun _ _ => .pure trivial
    · exact execBranches_traced hm locals pos bs fun hr => h (Bool.or_eq_true_iff.mpr (.inr hr))

end

/-- The output of statements has the events of the statements. -/
theorem output_traced (hm : ∀ log, m.Surrounded (Inv log) fun _ => True) (locals : Locals) {body : List Stmt}
    (h : Stmt.registersAny body = true → m.KeptByRegistering Inv) :
    Traced m (Placed m.compiled.template) Inv (m.output locals body) (m.eventsAll locals body) :=
  (execAll_traced hm locals body h).before fun _ _ => .pure trivial

end Machine

end Stencil
