import Stencil.Proofs.Render.Keeps

/-! How the code of a template can fail.

Running statements comes to statements and expressions further inside; each of them may fail by itself, in ways that
its form and the names in scope tell. What a run keeps and how it fails follows from the places that it comes to. -/

namespace Stencil

open Ir (Expr Stmt Branch Callee Builtin)

variable {σ : Type}

/-- The names of local variables. -/
def Locals.names (locals : Locals) : List String := locals.map (·.1)

theorem Locals.find?_eq_none {locals : Locals} {name : String} (h : locals.find? name = none) :
    name ∉ locals.names := by
  rw [Locals.find?, Option.map_eq_none_iff, List.find?_eq_none] at h
  intro hmem
  obtain ⟨p, hp, rfl⟩ := List.mem_map.mp hmem
  exact h p hp (beq_self_eq_true p.1)

/-! ### Expressions -/

/-- Evaluating an expression under names in scope comes to evaluating an expression under other names. -/
inductive Program.Evaluates (p : Program) : List String → Expr → List String → Expr → Prop
  | here {names : List String} {e : Expr} : Evaluates p names e names e
  | target {names names' : List String} {t e : Expr} {n : String} (h : Evaluates p names t names' e) :
      Evaluates p names (.member t n) names' e
  | argument {names names' : List String} {callee : Callee} {args : List Expr} {a e : Expr} (ha : a ∈ args)
      (h : Evaluates p names a names' e) : Evaluates p names (.call callee args) names' e
  | function {names names' : List String} {index : Nat} {args : List Expr} {f : Ir.Function} {e : Expr}
      (hf : p.module.functions[index]? = some f)
      (h : Evaluates p (f.params.take args.length).reverse f.body names' e) :
      Evaluates p names (.call (.function index) args) names' e
  | operand {names names' : List String} {o e : Expr} (h : Evaluates p names o names' e) :
      Evaluates p names (.not o) names' e
  | left {names names' : List String} {op : Ir.BinaryOp} {l r e : Expr} (h : Evaluates p names l names' e) :
      Evaluates p names (.binary op l r) names' e
  | right {names names' : List String} {op : Ir.BinaryOp} {l r e : Expr} (h : Evaluates p names r names' e) :
      Evaluates p names (.binary op l r) names' e

/-- A builtin can fail with a cause. -/
inductive Fails.Builtin : Builtin → ExecutionCause → Prop
  | noBody : Builtin .renderBody .bodyUnavailable
  | noText {b : Ir.Builtin} {message : String} : Builtin b (.helperFailed b.name message)
  | missing {name : String} : Builtin .renderSection (.requiredSectionMissing name)
  | notPrintable {kind : String} : Builtin .raw (.notPrintable kind)

/-- An expression can fail by itself under names in scope, after the expressions in it have been evaluated. -/
inductive Program.Fails (p : Program) (model : Json) (names : List String) : Expr → Fault → Prop
  | undefined {n : String} (h : n ∉ names) : Fails p model names (.var n) (.cause (.undefinedName n))
  | member {target : Expr} {n : String} {v : Json} (hv : v.member? n = none) (hm : target = .model → v = model) :
      Fails p model names (.member target n) (.cause (.memberNotFound (Machine.describe target v) n))
  | builtin {b : Ir.Builtin} {args : List Expr} {c : ExecutionCause} (h : Fails.Builtin b c) :
      Fails p model names (.call (.builtin b) args) (.cause c)
  | recursion {index : Nat} {args : List Expr} :
      Fails p model names (.call (.function index) args) (.cause .recursionLimit)
  | functionSlot {index : Nat} {args : List Expr} (h : p.module.functions[index]? = none) :
      Fails p model names (.call (.function index) args) (.cause (.invalidBinary (.functionSlot index)))
  | helperSlot {slot : Nat} {args : List Expr} (h : p.helpers[slot]? = none) :
      Fails p model names (.call (.helper slot) args) (.cause (.invalidBinary (.helperSlot slot)))
  | helper {slot : Nat} {args : List Expr} {h : Helper} {vs : List Json} {name message : String}
      (hh : p.helpers[slot]? = some h) (hl : vs.length = args.length) (hr : h.run vs = .error (.failed message)) :
      Fails p model names (.call (.helper slot) args) (.cause (.helperFailed name message))
  | missingArgument {slot : Nat} {args : List Expr} {h : Helper} {vs : List Json}
      (hh : p.helpers[slot]? = some h) (hl : vs.length = args.length) (hr : h.run vs = .error .missingArgument) :
      Fails p model names (.call (.helper slot) args) (.nested .missingArgument)
  | markup {slot : Nat} {args : List Expr} {h : Helper} {vs : List Json} {v : Json}
      (hh : p.helpers[slot]? = some h) (hl : vs.length = args.length) (hr : h.run vs = .ok v)
      (hm : h.markup = true) : Fails p model names (.call (.helper slot) args) (.cause (.notPrintable v.kind))

/-- What is around the code of a template keeps an invariant and fails only in certain ways. -/
structure Machine.Surrounded (m : Machine σ) (I : Scene σ → Prop) (N : Halt → Prop) : Prop where
  sections : ∀ name, Keeps I N (fun _ => True) (m.renderSection name)
  partials : ∀ key modelType v, Keeps I N (fun _ => True) (m.host.partial key modelType v)

/-- Evaluating an expression fails only where it comes to an expression that fails, or in what is around it. -/
def Machine.Accounts (m : Machine σ) (I : Scene σ → Prop) (N : Halt → Prop)
    (ev : Locals → Expr → Evaluation σ Evaluated) : Prop :=
  ∀ (E : Fault → Prop) (locals : Locals) (e : Expr), (∀ h, N h → E (.nested h)) →
    (∀ names' e' f, m.compiled.program.Evaluates locals.names e names' e' →
      m.compiled.program.Fails m.model names' e' f → E f) →
    Keeps I E (fun v => e = .model → v.toJson = m.model) (ev locals e)

namespace Machine

variable {m : Machine σ} {I : Scene σ → Prop} {N : Halt → Prop} {E : Fault → Prop}

theorem need_keeps {α : Type} {P : α → Prop} {v : Option α} {c : ExecutionCause} (hnone : v = none → E (.cause c))
    (hsome : ∀ a, v = some a → P a) : Keeps I E P (need v c : Evaluation σ α) := by
  cases v with
  | none => exact .throw (hnone rfl)
  | some a => exact .pure (hsome a rfl)

theorem textArg_keeps {b : Ir.Builtin} {what : String} {v : Option Json}
    (h : ∀ message, E (.cause (.helperFailed b.name message))) :
    Keeps I E (fun _ => True) (textArg b what v : Evaluation σ String) := by
  unfold textArg
  split
  · exact .pure trivial
  · exact .throw (h _)

theorem callBuiltin_keeps (hm : m.Surrounded I N) {b : Ir.Builtin} {args : List Json}
    (hN : ∀ h, N h → E (.nested h)) (hE : ∀ c, Fails.Builtin b c → E (.cause c)) :
    Keeps I E (fun _ => True) (m.callBuiltin b args) := by
  have htext : ∀ what v, Keeps I E (fun _ => True) (textArg b what v : Evaluation σ String) :=
    fun what v => textArg_keeps fun message => hE _ .noText
  cases b with
  | renderBody =>
    refine Keeps.get.bind fun s _ => ?_
    refine (need_keeps (fun _ => hE _ .noBody) fun _ _ => trivial).bind fun body _ => ?_
    exact .pure trivial
  | isSectionDefined =>
    refine (htext _ _).bind fun name _ => ?_
    refine Keeps.get.bind fun s _ => ?_
    exact .pure trivial
  | renderSection =>
    refine (htext _ _).bind fun name _ => ?_
    refine ((hm.sections name).adapt hN).bind fun text _ => ?_
    cases text with
    | some text => exact .pure trivial
    | none =>
      dsimp only
      split
      · exact .throw (hE _ .missing)
      · exact .pure trivial
  | embed =>
    refine (htext _ _).bind fun key _ => ?_
    have hpartial : ∀ modelType v, Keeps I E (fun _ => True) (m.host.partial key modelType v).lift :=
      fun modelType v => (hm.partials key modelType v).adapt hN
    dsimp only
    cases args.tail.head? with
    | some model => exact (hpartial _ _).bind fun _ _ => .pure trivial
    | none => exact (hpartial _ _).bind fun _ _ => .pure trivial
  | raw =>
    refine Keeps.bind (P := fun _ => True) ?_ fun text _ => .pure trivial
    exact need_keeps (fun _ => hE _ .notPrintable) fun _ _ => trivial

theorem callHelper_keeps {slot : Nat} {h : Helper} {vs : List Json} {args : List Expr} {names : List String}
    (hh : m.compiled.program.helpers[slot]? = some h) (hl : vs.length = args.length)
    (hE : ∀ f, m.compiled.program.Fails m.model names (.call (.helper slot) args) f → E f) :
    Keeps I E (fun _ => True) (m.callHelper slot h vs) := by
  unfold callHelper
  split
  · rename_i v hr
    split
    · rename_i hm
      refine Keeps.bind (P := fun _ => True) ?_ fun text _ => .pure trivial
      exact need_keeps (fun _ => hE _ (.markup hh hl hr hm)) fun _ _ => trivial
    · exact .pure trivial
  · rename_i message hr
    exact .throw (hE _ (.helper hh hl hr))
  · rename_i hr
    exact .throw (hE _ (.missingArgument hh hl hr))

theorem names_bindParams (params : List String) (vs : List Json) :
    (bindParams params vs).names = (params.take vs.length).reverse := by
  have hzip : (params.zip vs).map (·.1) = params.take vs.length := by
    induction params generalizing vs with
    | nil => simp
    | cons n params ih =>
      cases vs with
      | nil => rfl
      | cons v vs => simp [ih vs]
  rw [bindParams, Locals.names, List.map_reverse, hzip]

mutual

theorem eval_accounts (hm : m.Surrounded I N) {caller : Caller σ}
    (hcaller : ∀ invoke, caller = some invoke → m.Accounts I N invoke) (E : Fault → Prop) (locals : Locals) :
    (e : Expr) → (∀ h, N h → E (.nested h)) →
    (∀ names' e' f, m.compiled.program.Evaluates locals.names e names' e' →
      m.compiled.program.Fails m.model names' e' f → E f) →
    Keeps I E (fun v => e = .model → v.toJson = m.model) (m.eval caller locals e)
  | .literal v, _, _ => .pure fun h => by cases h
  | .model, _, _ => .pure fun _ => rfl
  | .var name, _, hE => by
    refine Keeps.bind (P := fun _ => True) (need_keeps (fun h => ?_) fun _ _ => trivial) fun v _ => .pure fun h => ?_
    · exact hE _ _ _ .here (.undefined (Locals.find?_eq_none h))
    · cases h
  | .member target name, hN, hE => by
    have ht := eval_accounts hm hcaller E locals target hN fun _ _ _ hv hf => hE _ _ _ (.target hv) hf
    refine ht.bind fun v hv => ?_
    refine Keeps.bind (P := fun _ => True) (need_keeps (fun h => ?_) fun _ _ => trivial) fun v _ => .pure fun h => ?_
    · exact hE _ _ _ .here (.member h hv)
    · cases h
  | .call (.builtin b) args, hN, hE => by
    have hargs := evalAll_accounts hm hcaller E locals args hN
      fun _ _ _ _ ha hv hf => hE _ _ _ (.argument ha hv) hf
    refine hargs.bind fun vs _ => ?_
    refine (callBuiltin_keeps hm hN fun c hc => hE _ _ _ .here (.builtin hc)).mono (fun _ h => h) fun _ _ h => ?_
    cases h
  | .call (.function index) args, hN, hE => by
    have hargs := evalAll_accounts hm hcaller E locals args hN
      fun _ _ _ _ ha hv hf => hE _ _ _ (.argument ha hv) hf
    refine Keeps.bind (need_keeps (fun _ => hE _ _ _ .here .recursion) fun _ h => h) fun invoke hinvoke => ?_
    refine Keeps.bind (need_keeps (fun h => hE _ _ _ .here (.functionSlot h)) fun _ h => h) fun f hf => ?_
    refine hargs.bind fun vs hvs => ?_
    -- The function's body is evaluated under its parameters alone, and a failure in it is one of the call.
    have hbody := hcaller invoke hinvoke E (bindParams f.params vs) f.body hN fun names' e' fault hv hfails => by
      rw [names_bindParams, hvs] at hv
      exact hE _ _ _ (.function hf hv) hfails
    exact hbody.mono (fun _ h => h) fun _ _ h => by cases h
  | .call (.helper slot) args, hN, hE => by
    have hargs := evalAll_accounts hm hcaller E locals args hN
      fun _ _ _ _ ha hv hf => hE _ _ _ (.argument ha hv) hf
    refine Keeps.bind (need_keeps (fun h => hE _ _ _ .here (.helperSlot h)) fun _ h => h) fun h hh => ?_
    refine hargs.bind fun vs hvs => ?_
    have hcall := callHelper_keeps (I := I) hh hvs fun f hf => hE _ _ _ .here hf
    exact hcall.mono (fun _ h => h) fun _ _ h => by cases h
  | .not operand, hN, hE => by
    have ho := eval_accounts hm hcaller E locals operand hN fun _ _ _ hv hf => hE _ _ _ (.operand hv) hf
    exact ho.bind fun v _ => .pure fun h => by cases h
  | .binary op lhs rhs, hN, hE => by
    have hl := eval_accounts hm hcaller E locals lhs hN fun _ _ _ hv hf => hE _ _ _ (.left hv) hf
    have hr := eval_accounts hm hcaller E locals rhs hN fun _ _ _ hv hf => hE _ _ _ (.right hv) hf
    -- The operators differ in what they make of the second operand only.
    have hright : ∀ g : Evaluated → Evaluated, Keeps I E (fun v => Expr.binary op lhs rhs = .model → v.toJson = m.model)
        (m.eval caller locals rhs >>= fun v => pure (g v)) :=
      fun g => hr.bind fun v _ => .pure fun h => by cases h
    refine hl.bind fun v _ => ?_
    cases op with
    | and =>
      dsimp only
      split
      · exact hright _
      · exact .pure fun h => by cases h
    | or =>
      dsimp only
      split
      · exact .pure fun h => by cases h
      · exact hright _
    | eq => exact hright _
    | ne => exact hright _

theorem evalAll_accounts (hm : m.Surrounded I N) {caller : Caller σ}
    (hcaller : ∀ invoke, caller = some invoke → m.Accounts I N invoke) (E : Fault → Prop) (locals : Locals) :
    (es : List Expr) → (∀ h, N h → E (.nested h)) →
    (∀ e names' e' f, e ∈ es → m.compiled.program.Evaluates locals.names e names' e' →
      m.compiled.program.Fails m.model names' e' f → E f) →
    Keeps I E (fun vs => vs.length = es.length) (m.evalAll caller locals es)
  | [], _, _ => .pure rfl
  | e :: es, hN, hE => by
    have he := eval_accounts hm hcaller E locals e hN fun _ _ _ hv hf => hE _ _ _ _ List.mem_cons_self hv hf
    have hes := evalAll_accounts hm hcaller E locals es hN
      fun _ _ _ _ h hv hf => hE _ _ _ _ (List.mem_cons_of_mem _ h) hv hf
    refine he.bind fun v _ => hes.bind fun vs hvs => .pure ?_
    exact congrArg (· + 1) hvs

end

/-- However deep template functions call each other, an expression fails only where its evaluation comes to. -/
theorem evalTo_accounts (hm : m.Surrounded I N) (depth : Nat) : m.Accounts I N (m.evalTo depth) := by
  induction depth with
  | zero => exact fun E locals e hN hE => eval_accounts hm (fun _ h => by cases h) E locals e hN hE
  | succ depth ih =>
    refine fun E locals e hN hE => eval_accounts hm (fun invoke h => ?_) E locals e hN hE
    cases h
    exact ih

end Machine

end Stencil
