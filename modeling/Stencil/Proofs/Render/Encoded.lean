import Stencil.Proofs.Render.Registering

/-! What code without markup writes.

Text that is written as it is comes only from the template itself, from some builtins and from markup helpers. So code that
calls none of these writes the texts of its template and, encoded, the printed values of its expressions. What such code
writes is told here by relations that know of values only, and of no markup: a value passes through functions, locals and
loops, and is encoded once, where it is printed. -/

namespace Stencil

open Ir (Expr Stmt Branch Callee Builtin)

variable {σ : Type}

/-! ### Encoded text -/

namespace Text

/-- What stands for the characters that could end a text or an attribute value. -/
def entities : List String := ["&amp;", "&lt;", "&gt;", "&quot;", "&#39;"]

/-- Encoded text holds none of the characters that could end it, an ampersand only where it begins an entity, and stands
for a text. -/
structure Encodes (text encoded : String) : Prop where
  free : ∀ c ∈ encoded.toList, c ∉ ['<', '>', '"', '\'']
  entity : ∀ before after, encoded.toList = before ++ '&' :: after → ∃ e ∈ entities, e.toList <+: '&' :: after
  decodes : htmlDecode encoded = text

/-- A character is encoded as an entity, or is itself and needs none. -/
theorem htmlEncodeChar_cases (c : Char) :
    (∃ e ∈ entities, htmlEncodeChar c = e.toList) ∨ htmlEncodeChar c = [c] ∧ c ∉ ['&', '<', '>', '"', '\''] := by
  unfold htmlEncodeChar
  split
  · exact .inl ⟨"&amp;", by decide, rfl⟩
  · exact .inl ⟨"&lt;", by decide, rfl⟩
  · exact .inl ⟨"&gt;", by decide, rfl⟩
  · exact .inl ⟨"&quot;", by decide, rfl⟩
  · exact .inl ⟨"&#39;", by decide, rfl⟩
  · rename_i hamp hlt hgt hquot hapos
    refine .inr ⟨rfl, ?_⟩
    simp only [List.mem_cons, List.not_mem_nil, or_false, not_or]
    exact ⟨hamp, hlt, hgt, hquot, hapos⟩

/-- An entity begins with its only ampersand and holds none of the characters that it stands for. -/
theorem entity_form : ∀ e ∈ entities,
    e.toList.head? = some '&' ∧ '&' ∉ e.toList.tail ∧ ∀ c ∈ e.toList, c ∉ ['<', '>', '"', '\''] := by
  have hhead : ∀ e ∈ entities, e.toList.head? = some '&' ∧ '&' ∉ e.toList.tail := by decide
  have hfree : (entities.all fun e => e.toList.all fun c => decide (c ∉ ['<', '>', '"', '\''])) = true := by decide
  intro e he
  obtain ⟨hfirst, honly⟩ := hhead e he
  exact ⟨hfirst, honly, fun c hc => of_decide_eq_true (List.all_eq_true.mp (List.all_eq_true.mp hfree e he) c hc)⟩

theorem htmlEncodeChar_free (c : Char) : ∀ d ∈ htmlEncodeChar c, d ∉ ['<', '>', '"', '\''] := by
  intro d hd
  rcases htmlEncodeChar_cases c with ⟨e, he, heq⟩ | ⟨heq, hfree⟩
  · exact (entity_form e he).2.2 d (heq ▸ hd)
  · rw [heq, List.mem_singleton] at hd
    subst hd
    exact fun hmem => hfree (List.mem_cons_of_mem _ hmem)

/-- An ampersand in an encoded character begins an entity. -/
theorem htmlEncodeChar_entity {c : Char} {before after : List Char} (h : htmlEncodeChar c = before ++ '&' :: after) :
    ∃ e ∈ entities, e.toList = '&' :: after := by
  rcases htmlEncodeChar_cases c with ⟨e, he, heq⟩ | ⟨heq, hfree⟩
  · rw [heq] at h
    refine ⟨e, he, ?_⟩
    cases before with
    | nil => exact h
    | cons d before =>
      refine absurd ?_ (entity_form e he).2.1
      rw [h, List.cons_append, List.tail_cons]
      exact List.mem_append_right _ List.mem_cons_self
  · rw [heq] at h
    have hamp : '&' ∈ [c] := h ▸ List.mem_append_right _ List.mem_cons_self
    rw [List.mem_singleton.mp hamp] at hfree
    exact absurd List.mem_cons_self hfree

/-- Encoding gives encoded text, for every text. -/
theorem htmlEncode_encodes (text : String) : Encodes text (htmlEncode text) where
  free := by
    intro d hd
    rw [htmlEncode, String.toList_ofList] at hd
    obtain ⟨c, -, hd⟩ := List.mem_flatMap.mp hd
    exact htmlEncodeChar_free c d hd
  entity := by
    rw [htmlEncode, String.toList_ofList]
    generalize text.toList = cs
    induction cs with
    | nil => exact fun before after h => absurd h.symm (List.append_ne_nil_of_right_ne_nil _ (List.cons_ne_nil _ _))
    | cons c cs ih =>
      intro before after h
      rw [List.flatMap_cons] at h
      -- The ampersand is one of the encoded character, or of what comes after it.
      rcases List.append_eq_append_iff.mp h with ⟨between, -, hrest⟩ | ⟨between, hchar, hafter⟩
      · exact ih between after hrest
      · cases between with
        | nil => exact ih [] after hafter.symm
        | cons d between =>
          obtain ⟨rfl, hafter⟩ := List.cons_eq_cons.mp hafter
          obtain ⟨e, he, hform⟩ := htmlEncodeChar_entity hchar
          refine ⟨e, he, ?_⟩
          rw [hform, hafter]
          exact List.prefix_append _ _
  decodes := htmlDecode_htmlEncode text

end Text

/-! ### Code without markup -/

namespace Ir

mutual

/-- What the expression calls. -/
def Expr.callees : Expr → List Callee
  | .literal _ | .model | .var _ => []
  | .member target _ => target.callees
  | .call callee args => callee :: Expr.calleesAll args
  | .not operand => operand.callees
  | .binary _ lhs rhs => lhs.callees ++ rhs.callees

/-- What the expressions call. -/
def Expr.calleesAll : List Expr → List Callee
  | [] => []
  | e :: es => e.callees ++ Expr.calleesAll es

end

mutual

/-- What the statement calls. -/
def Stmt.callees : Stmt → List Callee
  | .write _ | .defineSection _ => []
  | .emit e _ | .bind _ e _ => e.callees
  | .ifElse branches none _ => Branch.calleesAll branches
  | .ifElse branches (some body) _ => Branch.calleesAll branches ++ Stmt.calleesAll body
  | .forEach _ source body _ => source.callees ++ Stmt.calleesAll body

/-- What the statements call. -/
def Stmt.calleesAll : List Stmt → List Callee
  | [] => []
  | s :: ss => s.callees ++ Stmt.calleesAll ss

/-- What the branches call. -/
def Branch.calleesAll : List Branch → List Callee
  | [] => []
  | .mk cond body :: bs => cond.callees ++ Stmt.calleesAll body ++ Branch.calleesAll bs

end

end Ir

/-- The call gives a value and no markup: it goes to a function, to a helper that is no markup helper, or only asks for a
section. -/
def Program.CallsPlain (p : Program) : Callee → Prop
  | .builtin b => b = .isSectionDefined
  | .function _ => True
  | .helper slot => ∀ h, p.helpers[slot]? = some h → h.markup = false

/-- The body and the functions of the program call nothing that gives markup. -/
structure Program.Plain (p : Program) : Prop where
  body : ∀ c ∈ Stmt.calleesAll p.module.body, p.CallsPlain c
  functions : ∀ f ∈ p.module.functions, ∀ c ∈ f.body.callees, p.CallsPlain c

/-! ### What it writes -/

namespace CompiledTemplate

mutual

/-- The expression has a value under locals, in a context that tells which sections are defined. -/
inductive Yields (t : CompiledTemplate) (model : Json) (c : Context Action) : Locals → Expr → Json → Prop
  | literal {locals : Locals} {v : Json} : Yields t model c locals (.literal v) v
  | model {locals : Locals} : Yields t model c locals .model model
  | var {locals : Locals} {name : String} {v : Json} (h : locals.find? name = some v) : Yields t model c locals (.var name) v
  | member {locals : Locals} {target : Expr} {name : String} {v w : Json} (hv : Yields t model c locals target v)
      (hw : v.member? name = some w) : Yields t model c locals (.member target name) w
  | defined {locals : Locals} {args : List Expr} {name : String} {vs : List Json}
      (h : YieldsAll t model c locals args (.string name :: vs)) :
      Yields t model c locals (.call (.builtin .isSectionDefined) args) (.bool (c.isDefined name))
  | function {locals : Locals} {index : Nat} {args : List Expr} {f : Ir.Function} {vs : List Json} {v : Json}
      (hf : t.module.functions[index]? = some f) (hvs : YieldsAll t model c locals args vs)
      (hv : Yields t model c (Machine.bindParams f.params vs) f.body v) :
      Yields t model c locals (.call (.function index) args) v
  | helper {locals : Locals} {slot : Nat} {args : List Expr} {h : Helper} {vs : List Json} {v : Json}
      (hh : t.program.helpers[slot]? = some h) (hvs : YieldsAll t model c locals args vs) (hv : h.run vs = .ok v) :
      Yields t model c locals (.call (.helper slot) args) v
  | not {locals : Locals} {e : Expr} {v : Json} (h : Yields t model c locals e v) :
      Yields t model c locals (.not e) (.bool (!v.truthy))
  | andFalse {locals : Locals} {l r : Expr} {a : Json} (ha : Yields t model c locals l a) (h : a.truthy = false) :
      Yields t model c locals (.binary .and l r) (.bool false)
  | andTrue {locals : Locals} {l r : Expr} {a b : Json} (ha : Yields t model c locals l a) (h : a.truthy = true)
      (hb : Yields t model c locals r b) : Yields t model c locals (.binary .and l r) (.bool b.truthy)
  | orTrue {locals : Locals} {l r : Expr} {a : Json} (ha : Yields t model c locals l a) (h : a.truthy = true) :
      Yields t model c locals (.binary .or l r) (.bool true)
  | orFalse {locals : Locals} {l r : Expr} {a b : Json} (ha : Yields t model c locals l a) (h : a.truthy = false)
      (hb : Yields t model c locals r b) : Yields t model c locals (.binary .or l r) (.bool b.truthy)
  | eq {locals : Locals} {l r : Expr} {a b : Json} (ha : Yields t model c locals l a) (hb : Yields t model c locals r b) :
      Yields t model c locals (.binary .eq l r) (.bool (a.looselyEqual b))
  | ne {locals : Locals} {l r : Expr} {a b : Json} (ha : Yields t model c locals l a) (hb : Yields t model c locals r b) :
      Yields t model c locals (.binary .ne l r) (.bool (!a.looselyEqual b))

/-- The expressions have values. -/
inductive YieldsAll (t : CompiledTemplate) (model : Json) (c : Context Action) : Locals → List Expr → List Json → Prop
  | nil {locals : Locals} : YieldsAll t model c locals [] []
  | cons {locals : Locals} {e : Expr} {es : List Expr} {v : Json} {vs : List Json} (h : Yields t model c locals e v)
      (hs : YieldsAll t model c locals es vs) : YieldsAll t model c locals (e :: es) (v :: vs)

end

/-- The body is the first of the branches whose condition holds, or there is none. -/
inductive Takes (t : CompiledTemplate) (model : Json) (c : Context Action) (locals : Locals) :
    List Branch → Option (List Stmt) → Prop
  | none : Takes t model c locals [] none
  | here {cond : Expr} {body : List Stmt} {bs : List Branch} {v : Json} (hv : t.Yields model c locals cond v)
      (h : v.truthy = true) : Takes t model c locals (.mk cond body :: bs) (some body)
  | later {cond : Expr} {body : List Stmt} {bs : List Branch} {taken : Option (List Stmt)} {v : Json}
      (hv : t.Yields model c locals cond v) (h : v.truthy = false) (hbs : Takes t model c locals bs taken) :
      Takes t model c locals (.mk cond body :: bs) taken

end CompiledTemplate

/-- What is written: text of the template, or the text that is printed for a value. -/
inductive Written
  | text (s : String)
  | printed (s : String)

/-- Text of the template stands in the output as it is, and what is printed is encoded. -/
def Written.output : Written → String
  | text s => s
  | printed s => Text.htmlEncode s

/-- The piece of output of a run. -/
def Written.piece : Written → Piece
  | text s => .literal s
  | printed s => .value s

namespace CompiledTemplate

mutual

/-- A statement writes something in turn: from one context to another, with the locals for the statements after it. -/
inductive Writes (t : CompiledTemplate) (model : Json) :
    Context Action → Locals → Stmt → List Written → Locals → Context Action → Prop
  | write {c : Context Action} {locals : Locals} {text : String} :
      Writes t model c locals (.write text) [.text text] locals c
  | emit {c : Context Action} {locals : Locals} {e : Expr} {pos : Option SourcePos} {v : Json} {text : String}
      (hv : t.Yields model c locals e v) (h : v.printed? = some text) :
      Writes t model c locals (.emit e pos) [.printed text] locals c
  | bind {c : Context Action} {locals : Locals} {name : String} {e : Expr} {pos : Option SourcePos} {v : Json}
      (hv : t.Yields model c locals e v) : Writes t model c locals (.bind name e pos) [] ((name, v) :: locals) c
  | branch {c d : Context Action} {locals : Locals} {branches : List Branch} {otherwise : Option (List Stmt)}
      {pos : Option SourcePos} {body : List Stmt} {ws : List Written} (hb : t.Takes model c locals branches (some body))
      (h : WritesAll t model c locals body ws d) : Writes t model c locals (.ifElse branches otherwise pos) ws locals d
  | otherwise {c d : Context Action} {locals : Locals} {branches : List Branch} {pos : Option SourcePos} {body : List Stmt}
      {ws : List Written} (hb : t.Takes model c locals branches none) (h : WritesAll t model c locals body ws d) :
      Writes t model c locals (.ifElse branches (some body) pos) ws locals d
  | skip {c : Context Action} {locals : Locals} {branches : List Branch} {pos : Option SourcePos}
      (hb : t.Takes model c locals branches none) : Writes t model c locals (.ifElse branches none pos) [] locals c
  | loop {c d : Context Action} {locals : Locals} {name : String} {source : Expr} {body : List Stmt} {pos : Option SourcePos}
      {v : Json} {vs : List Json} {ws : List Written} (hv : t.Yields model c locals source v) (hvs : v.items? = some vs)
      (h : WritesEach t model c locals name body vs ws d) :
      Writes t model c locals (.forEach name source body pos) ws locals d
  | registered {c d : Context Action} {locals : Locals} {index : Nat} {a : Action} (ha : a = ⟨t, model, index, locals⟩)
      (h : c.define a.name a = .ok d) : Writes t model c locals (.defineSection index) [] locals d

/-- Statements write in turn. -/
inductive WritesAll (t : CompiledTemplate) (model : Json) :
    Context Action → Locals → List Stmt → List Written → Context Action → Prop
  | nil {c : Context Action} {locals : Locals} : WritesAll t model c locals [] [] c
  | cons {c c' d : Context Action} {locals locals' : Locals} {s : Stmt} {ss : List Stmt} {ws ws' : List Written}
      (h : Writes t model c locals s ws locals' c') (hs : WritesAll t model c' locals' ss ws' d) :
      WritesAll t model c locals (s :: ss) (ws ++ ws') d

/-- The body of a loop writes for each value in turn. -/
inductive WritesEach (t : CompiledTemplate) (model : Json) :
    Context Action → Locals → String → List Stmt → List Json → List Written → Context Action → Prop
  | nil {c : Context Action} {locals : Locals} {name : String} {body : List Stmt} :
      WritesEach t model c locals name body [] [] c
  | cons {c c' d : Context Action} {locals : Locals} {name : String} {body : List Stmt} {v : Json} {vs : List Json}
      {ws ws' : List Written} (h : WritesAll t model c ((name, v) :: locals) body ws c')
      (hs : WritesEach t model c' locals name body vs ws' d) : WritesEach t model c locals name body (v :: vs) (ws ++ ws') d

end

end CompiledTemplate

/-! ### Evaluating without markup -/

namespace Machine

variable {m : Machine σ} {s s' : Scene σ}

theorem need_eq_ok {α : Type} {v : Option α} {cause : ExecutionCause} {a : α}
    (h : (need v cause : Evaluation σ α) s = (.ok a, s')) : v = some a ∧ s = s' := by
  cases v with
  | none => cases h
  | some b =>
    cases h
    exact ⟨rfl, rfl⟩

theorem textArg_eq_ok {b : Builtin} {what text : String} {v : Option Json}
    (h : (textArg b what v : Evaluation σ String) s = (.ok text, s')) : v = some (.string text) ∧ s = s' := by
  unfold textArg at h
  split at h
  · cases h
    exact ⟨rfl, rfl⟩
  · cases h

/-- Evaluating the expression without markup gives its value and leaves the scene as it is. -/
def EvaluatesPlainly (m : Machine σ) (x : Evaluation σ Evaluated) (locals : Locals) (e : Expr) : Prop :=
  ∀ s r s', x s = (.ok r, s') → s = s' ∧ ∃ v, r = .value v ∧ m.compiled.Yields m.model s.context locals e v

theorem callHelper_eq_ok {slot : Nat} {h : Helper} (hplain : h.markup = false) {args : List Json} {r : Evaluated}
    (hr : m.callHelper slot h args s = (.ok r, s')) : s = s' ∧ ∃ v, r = .value v ∧ h.run args = .ok v := by
  rw [callHelper] at hr
  cases hv : h.run args with
  | ok v =>
    rw [hv, hplain] at hr
    cases hr
    exact ⟨rfl, v, rfl, rfl⟩
  | error e =>
    rw [hv] at hr
    cases e <;> cases hr

/-- A call evaluates its arguments, in order, and gives no markup if what it calls gives none. -/
theorem eval_call_plainly {caller : Caller σ} {locals : Locals} {callee : Callee} {args : List Expr}
    (hcaller : ∀ invoke, caller = some invoke → ∀ f ∈ m.compiled.module.functions, ∀ locals,
      m.EvaluatesPlainly (invoke locals f.body) locals f.body) (hcallee : m.compiled.program.CallsPlain callee)
    (hargs : ∀ s vs s', m.evalAll caller locals args s = (.ok vs, s') →
      s = s' ∧ m.compiled.YieldsAll m.model s.context locals args vs) :
    m.EvaluatesPlainly (m.eval caller locals (.call callee args)) locals (.call callee args) := by
  intro s r s' h
  cases callee with
  | builtin b =>
    obtain rfl : b = .isSectionDefined := hcallee
    rw [eval] at h
    obtain ⟨vs, s₁, hrun, h⟩ := bind_eq_ok h
    obtain ⟨rfl, hvs⟩ := hargs s vs s₁ hrun
    obtain ⟨text, s₂, htext, h⟩ := bind_eq_ok h
    obtain ⟨hfirst, rfl⟩ := textArg_eq_ok htext
    cases h
    obtain ⟨rest, rfl⟩ := List.head?_eq_some_iff.mp hfirst
    exact ⟨rfl, _, rfl, .defined hvs⟩
  | function index =>
    rw [eval] at h
    obtain ⟨invoke, s₁, hneed, h⟩ := bind_eq_ok h
    obtain ⟨hinvoke, rfl⟩ := need_eq_ok hneed
    obtain ⟨f, s₂, hslot, h⟩ := bind_eq_ok h
    obtain ⟨hf, rfl⟩ := need_eq_ok hslot
    obtain ⟨vs, s₃, hrun, h⟩ := bind_eq_ok h
    obtain ⟨rfl, hvs⟩ := hargs s vs s₃ hrun
    obtain ⟨rfl, v, rfl, hv⟩ := hcaller invoke hinvoke f (List.mem_of_getElem? hf) _ _ r s' h
    exact ⟨rfl, v, rfl, .function hf hvs hv⟩
  | helper slot =>
    rw [eval] at h
    obtain ⟨helper, s₁, hslot, h⟩ := bind_eq_ok h
    obtain ⟨hh, rfl⟩ := need_eq_ok hslot
    obtain ⟨vs, s₂, hrun, h⟩ := bind_eq_ok h
    obtain ⟨rfl, hvs⟩ := hargs s vs s₂ hrun
    obtain ⟨rfl, v, rfl, hv⟩ := callHelper_eq_ok (hcallee helper hh) h
    exact ⟨rfl, v, rfl, .helper hh hvs hv⟩

theorem eval_binary_plainly {caller : Caller σ} {locals : Locals} {op : Ir.BinaryOp} {lhs rhs : Expr}
    (hlhs : m.EvaluatesPlainly (m.eval caller locals lhs) locals lhs)
    (hrhs : m.EvaluatesPlainly (m.eval caller locals rhs) locals rhs) :
    m.EvaluatesPlainly (m.eval caller locals (.binary op lhs rhs)) locals (.binary op lhs rhs) := by
  intro s r s' h
  rw [eval] at h
  obtain ⟨r₁, s₁, hrun, h⟩ := bind_eq_ok h
  obtain ⟨rfl, a, rfl, ha⟩ := hlhs s r₁ s₁ hrun
  -- The second operand is evaluated in the same scene, if it is.
  have hsecond : ∀ {f : Json → Json},
      ((m.eval caller locals rhs >>= fun b => pure (.value (f b.toJson))) : Evaluation σ Evaluated) s = (.ok r, s') →
        s = s' ∧ ∃ b, r = .value (f b) ∧ m.compiled.Yields m.model s.context locals rhs b := by
    intro f h
    obtain ⟨r₂, s₂, hrun, h⟩ := bind_eq_ok h
    obtain ⟨rfl, b, rfl, hb⟩ := hrhs s r₂ s₂ hrun
    cases h
    exact ⟨rfl, b, rfl, hb⟩
  cases op with
  | and =>
    dsimp only [Evaluated.toJson] at h
    split at h
    · rename_i htruthy
      obtain ⟨rfl, b, rfl, hb⟩ := hsecond (f := fun b => .bool b.truthy) h
      exact ⟨rfl, _, rfl, .andTrue ha htruthy hb⟩
    · rename_i hfalse
      cases h
      exact ⟨rfl, _, rfl, .andFalse ha (Bool.eq_false_iff.mpr hfalse)⟩
  | or =>
    dsimp only [Evaluated.toJson] at h
    split at h
    · rename_i htruthy
      cases h
      exact ⟨rfl, _, rfl, .orTrue ha htruthy⟩
    · rename_i hfalse
      obtain ⟨rfl, b, rfl, hb⟩ := hsecond (f := fun b => .bool b.truthy) h
      exact ⟨rfl, _, rfl, .orFalse ha (Bool.eq_false_iff.mpr hfalse) hb⟩
  | eq =>
    obtain ⟨rfl, b, rfl, hb⟩ := hsecond (f := fun b => .bool (a.looselyEqual b)) h
    exact ⟨rfl, _, rfl, .eq ha hb⟩
  | ne =>
    obtain ⟨rfl, b, rfl, hb⟩ := hsecond (f := fun b => .bool (!a.looselyEqual b)) h
    exact ⟨rfl, _, rfl, .ne ha hb⟩

mutual

theorem eval_plainly {caller : Caller σ} (hm : m.compiled.program.Plain)
    (hcaller : ∀ invoke, caller = some invoke → ∀ f ∈ m.compiled.module.functions, ∀ locals,
      m.EvaluatesPlainly (invoke locals f.body) locals f.body) (locals : Locals) :
    (e : Expr) → (∀ c ∈ e.callees, m.compiled.program.CallsPlain c) →
    m.EvaluatesPlainly (m.eval caller locals e) locals e
  | .literal v, _ => by
    intro s r s' h
    cases h
    exact ⟨rfl, v, rfl, .literal⟩
  | .model, _ => by
    intro s r s' h
    cases h
    exact ⟨rfl, m.model, rfl, .model⟩
  | .var name, _ => by
    intro s r s' h
    rw [eval] at h
    obtain ⟨v, s₁, hrun, h⟩ := bind_eq_ok h
    obtain ⟨hfound, rfl⟩ := need_eq_ok hrun
    cases h
    exact ⟨rfl, v, rfl, .var hfound⟩
  | .member target name, he => by
    intro s r s' h
    rw [eval] at h
    obtain ⟨r₁, s₁, hr, h⟩ := bind_eq_ok h
    obtain ⟨rfl, v, rfl, hv⟩ := eval_plainly hm hcaller locals target he s r₁ s₁ hr
    obtain ⟨w, s₂, hrun, h⟩ := bind_eq_ok h
    obtain ⟨hfound, rfl⟩ := need_eq_ok hrun
    cases h
    exact ⟨rfl, w, rfl, .member hv hfound⟩
  | .call callee args, he =>
    eval_call_plainly hcaller (he callee List.mem_cons_self)
      (evalAll_plainly hm hcaller locals args fun c hc => he c (List.mem_cons_of_mem _ hc))
  | .not operand, he => by
    intro s r s' h
    rw [eval] at h
    obtain ⟨r₁, s₁, hr, h⟩ := bind_eq_ok h
    obtain ⟨rfl, v, rfl, hv⟩ := eval_plainly hm hcaller locals operand he s r₁ s₁ hr
    cases h
    exact ⟨rfl, _, rfl, .not hv⟩
  | .binary op lhs rhs, he =>
    eval_binary_plainly (eval_plainly hm hcaller locals lhs fun c hc => he c (List.mem_append_left _ hc))
      (eval_plainly hm hcaller locals rhs fun c hc => he c (List.mem_append_right _ hc))

theorem evalAll_plainly {caller : Caller σ} (hm : m.compiled.program.Plain)
    (hcaller : ∀ invoke, caller = some invoke → ∀ f ∈ m.compiled.module.functions, ∀ locals,
      m.EvaluatesPlainly (invoke locals f.body) locals f.body) (locals : Locals) :
    (es : List Expr) → (∀ c ∈ Expr.calleesAll es, m.compiled.program.CallsPlain c) → ∀ s vs s',
      m.evalAll caller locals es s = (.ok vs, s') → s = s' ∧ m.compiled.YieldsAll m.model s.context locals es vs
  | [], _, s, vs, s', h => by
    cases h
    exact ⟨rfl, .nil⟩
  | e :: es, he, s, vs, s', h => by
    rw [evalAll] at h
    obtain ⟨r, s₁, hr, h⟩ := bind_eq_ok h
    obtain ⟨rfl, v, rfl, hv⟩ := eval_plainly hm hcaller locals e (fun c hc => he c (List.mem_append_left _ hc)) s r s₁ hr
    obtain ⟨vs, s₂, hrest, h⟩ := bind_eq_ok h
    obtain ⟨rfl, hvs⟩ := evalAll_plainly hm hcaller locals es (fun c hc => he c (List.mem_append_right _ hc)) s vs s₂ hrest
    cases h
    exact ⟨rfl, .cons hv hvs⟩

end

theorem evalTo_plainly (hm : m.compiled.program.Plain) (depth : Nat) (locals : Locals) {e : Expr}
    (he : ∀ c ∈ e.callees, m.compiled.program.CallsPlain c) : m.EvaluatesPlainly (m.evalTo depth locals e) locals e := by
  induction depth generalizing locals e with
  | zero =>
    refine eval_plainly hm (fun invoke h => ?_) locals e he
    cases h
  | succ depth ih =>
    refine eval_plainly hm (fun invoke h f hf locals => ?_) locals e he
    cases h
    exact ih locals (hm.functions f hf)

/-! ### Executing without markup -/

theorem evalAt_eq_ok (hm : m.compiled.program.Plain) {pos : Option SourcePos} {locals : Locals} {e : Expr}
    (he : ∀ c ∈ e.callees, m.compiled.program.CallsPlain c) {r : Evaluated} (h : m.evalAt pos locals e s = (.ok r, s')) :
    s = s' ∧ ∃ v, r = .value v ∧ m.compiled.Yields m.model s.context locals e v :=
  evalTo_plainly hm maxCallDepth locals he s r s' (Evaluation.at_eq_ok h)

/-- A run that gives pieces of output writes them, from one context to another. -/
def Gives (pieces : List Piece) (writes : List Written → Prop) : Prop := ∃ ws, pieces = ws.map Written.piece ∧ writes ws

theorem Gives.append {pieces pieces' : List Piece} {writes writes' all : List Written → Prop} (h : Gives pieces writes)
    (h' : Gives pieces' writes') (hall : ∀ ws ws', writes ws → writes' ws' → all (ws ++ ws')) :
    Gives (pieces ++ pieces') all := by
  obtain ⟨ws, rfl, hws⟩ := h
  obtain ⟨ws', rfl, hws'⟩ := h'
  exact ⟨ws ++ ws', List.map_append.symm, hall ws ws' hws hws'⟩

/-- If the body of a loop writes for each value, so does the loop. -/
theorem mapM_writes {locals : Locals} {name : String} {body : List Stmt}
    (hbody : ∀ v s pieces s', m.execAll ((name, v) :: locals) body s = (.ok pieces, s') →
      Gives pieces fun ws => m.compiled.WritesAll m.model s.context ((name, v) :: locals) body ws s'.context)
    (vs : List Json) {pieces : List (List Piece)}
    (h : (vs.mapM fun v => m.execAll ((name, v) :: locals) body) s = (.ok pieces, s')) :
    Gives pieces.flatten fun ws => m.compiled.WritesEach m.model s.context locals name body vs ws s'.context := by
  induction vs generalizing s pieces with
  | nil =>
    rw [List.mapM_nil] at h
    cases h
    exact ⟨[], rfl, .nil⟩
  | cons v vs ih =>
    rw [List.mapM_cons] at h
    obtain ⟨first, s₁, hfirst, h⟩ := bind_eq_ok h
    obtain ⟨rest, s₂, hrest, h⟩ := bind_eq_ok h
    cases h
    exact (hbody v s first s₁ hfirst).append (ih hrest) fun _ _ => .cons

mutual

theorem exec_gives (hm : m.compiled.program.Plain) (locals : Locals) :
    (st : Stmt) → (∀ c ∈ st.callees, m.compiled.program.CallsPlain c) → ∀ s locals' pieces s',
      m.exec locals st s = (.ok (locals', pieces), s') →
      Gives pieces fun ws => m.compiled.Writes m.model s.context locals st ws locals' s'.context
  | .write text, _, s, locals', pieces, s', h => by
    cases h
    exact ⟨[.text text], rfl, .write⟩
  | .emit e pos, he, s, locals', pieces, s', h => by
    rw [exec] at h
    obtain ⟨r, s₁, hr, h⟩ := bind_eq_ok h
    obtain ⟨rfl, v, rfl, hv⟩ := evalAt_eq_ok hm he hr
    obtain ⟨p, s₂, hp, h⟩ := bind_eq_ok h
    obtain ⟨text, s₃, hprint, hp⟩ := bind_eq_ok (Evaluation.at_eq_ok hp)
    obtain ⟨htext, rfl⟩ := need_eq_ok hprint
    cases hp
    cases h
    exact ⟨[.printed text], rfl, .emit hv htext⟩
  | .bind name e pos, he, s, locals', pieces, s', h => by
    rw [exec] at h
    obtain ⟨r, s₁, hr, h⟩ := bind_eq_ok h
    obtain ⟨rfl, v, rfl, hv⟩ := evalAt_eq_ok hm he hr
    cases h
    exact ⟨[], rfl, .bind hv⟩
  | .ifElse branches none pos, he, s, locals', pieces, s', h => by
    rw [exec] at h
    obtain ⟨taken, s₁, htaken, h⟩ := bind_eq_ok h
    have hbranches := execBranches_writes hm locals pos branches he s taken s₁ htaken
    cases taken with
    | some pieces =>
      cases h
      obtain ⟨body, hb, ws, rfl, hws⟩ := hbranches
      exact ⟨ws, rfl, .branch hb hws⟩
    | none =>
      cases h
      obtain ⟨rfl, hb⟩ := hbranches
      exact ⟨[], rfl, .skip hb⟩
  | .ifElse branches (some body) pos, he, s, locals', pieces, s', h => by
    rw [exec] at h
    obtain ⟨taken, s₁, htaken, h⟩ := bind_eq_ok h
    have hbranches :=
      execBranches_writes hm locals pos branches (fun c hc => he c (List.mem_append_left _ hc)) s taken s₁ htaken
    cases taken with
    | some pieces =>
      cases h
      obtain ⟨body, hb, ws, rfl, hws⟩ := hbranches
      exact ⟨ws, rfl, .branch hb hws⟩
    | none =>
      obtain ⟨rfl, hb⟩ := hbranches
      obtain ⟨pieces, s₂, hbody, h⟩ := bind_eq_ok h
      cases h
      obtain ⟨ws, rfl, hws⟩ := execAll_gives hm locals body (fun c hc => he c (List.mem_append_right _ hc)) s pieces _ hbody
      exact ⟨ws, rfl, .otherwise hb hws⟩
  | .forEach name source body pos, he, s, locals', pieces, s', h => by
    rw [exec] at h
    obtain ⟨r, s₁, hr, h⟩ := bind_eq_ok h
    obtain ⟨rfl, v, rfl, hv⟩ := evalAt_eq_ok hm (fun c hc => he c (List.mem_append_left _ hc)) hr
    obtain ⟨vs, s₂, hitems, h⟩ := bind_eq_ok h
    obtain ⟨hvs, rfl⟩ := need_eq_ok (Evaluation.at_eq_ok hitems)
    obtain ⟨all, s₃, hloop, h⟩ := bind_eq_ok h
    -- The body gives pieces for each item, and the pieces of the loop are all of these.
    have hbody := fun v => execAll_gives hm ((name, v) :: locals) body fun c hc => he c (List.mem_append_right _ hc)
    obtain ⟨ws, hws, hwrites⟩ := mapM_writes hbody vs hloop
    cases h
    exact ⟨ws, hws, .loop hv hvs hwrites⟩
  | .defineSection index, _, s, locals', pieces, s', h => by
    rw [exec_defineSection] at h
    cases hd : s.context.define (m.action index locals).name (m.action index locals) with
    | ok context =>
      rw [hd] at h
      cases h
      exact ⟨[], rfl, .registered rfl hd⟩
    | error cause =>
      rw [hd] at h
      cases h

theorem execAll_gives (hm : m.compiled.program.Plain) (locals : Locals) :
    (ss : List Stmt) → (∀ c ∈ Stmt.calleesAll ss, m.compiled.program.CallsPlain c) → ∀ s pieces s',
      m.execAll locals ss s = (.ok pieces, s') →
      Gives pieces fun ws => m.compiled.WritesAll m.model s.context locals ss ws s'.context
  | [], _, s, pieces, s', h => by
    cases h
    exact ⟨[], rfl, .nil⟩
  | st :: ss, he, s, pieces, s', h => by
    rw [execAll] at h
    obtain ⟨⟨locals', first⟩, s₁, hfirst, h⟩ := bind_eq_ok h
    obtain ⟨rest, s₂, hrest, h⟩ := bind_eq_ok h
    cases h
    have hst := exec_gives hm locals st (fun c hc => he c (List.mem_append_left _ hc)) s locals' first s₁ hfirst
    have hss := execAll_gives hm locals' ss (fun c hc => he c (List.mem_append_right _ hc)) s₁ rest s' hrest
    exact hst.append hss fun _ _ => .cons

theorem execBranches_writes (hm : m.compiled.program.Plain) (locals : Locals) (pos : Option SourcePos) :
    (bs : List Branch) → (∀ c ∈ Branch.calleesAll bs, m.compiled.program.CallsPlain c) → ∀ s taken s',
      m.execBranches locals pos bs s = (.ok taken, s') →
      match taken with
      | none => s = s' ∧ m.compiled.Takes m.model s.context locals bs none
      | some pieces => ∃ body, m.compiled.Takes m.model s.context locals bs (some body) ∧
          Gives pieces fun ws => m.compiled.WritesAll m.model s.context locals body ws s'.context
  | [], _, s, taken, s', h => by
    cases h
    exact ⟨rfl, .none⟩
  | .mk cond body :: bs, he, s, taken, s', h => by
    have hcond := fun c hc => he c (List.mem_append_left _ (List.mem_append_left _ hc))
    have hbody := fun c hc => he c (List.mem_append_left _ (List.mem_append_right _ hc))
    have hbs := fun c hc => he c (List.mem_append_right _ hc)
    rw [execBranches] at h
    obtain ⟨r, s₁, hr, h⟩ := bind_eq_ok h
    obtain ⟨rfl, v, rfl, hv⟩ := evalAt_eq_ok hm hcond hr
    cases htruthy : v.truthy with
    | true =>
      rw [if_pos (by exact htruthy)] at h
      obtain ⟨pieces, s₂, hrun, h⟩ := bind_eq_ok h
      cases h
      exact ⟨body, .here hv htruthy, execAll_gives hm locals body hbody s pieces _ hrun⟩
    | false =>
      rw [if_neg (by exact Bool.eq_false_iff.mp htruthy)] at h
      have hrest := execBranches_writes hm locals pos bs hbs s taken s' h
      cases taken with
      | none => exact ⟨hrest.1, .later hv htruthy hrest.2⟩
      | some pieces =>
        obtain ⟨later, htakes, hgives⟩ := hrest
        exact ⟨later, .later hv htruthy htakes, hgives⟩

end

end Machine

/-! ### The output -/

/-- A program that encodes, and whose code calls nothing that gives markup, writes texts of the template and encoded texts
of values, in the order in which its statements run; and encoded text is safe to stand anywhere in a document. -/
theorem CompiledTemplate.output_encoded {t : CompiledTemplate} (henc : t.program.encoding = .html)
    (hplain : t.program.Plain) :
    (∀ (model : Json) (host : Host σ) (s : Scene σ) (out : String), (t.execute model host s).1 = .ok out →
      ∃ ws d, t.WritesAll model s.context [] t.module.body ws d ∧ out = String.join (ws.map Written.output)) ∧
    ∀ text, Text.Encodes text (Text.htmlEncode text) := by
  refine ⟨fun model host s out h => ?_, Text.htmlEncode_encodes⟩
  let m : Machine σ := ⟨t, model, host, renderSectionTo host s.context.depth⟩
  rw [CompiledTemplate.execute_run] at h
  have hrun : m.output [] t.module.body s = (.ok out, (m.output [] t.module.body s).2) := Prod.ext h rfl
  obtain ⟨pieces, s₁, hpieces, hout⟩ := bind_eq_ok hrun
  obtain ⟨ws, rfl, hws⟩ := m.execAll_gives hplain [] t.module.body hplain.body s pieces s₁ hpieces
  refine ⟨ws, s₁.context, hws, ?_⟩
  have hrender : Piece.render .html ∘ Written.piece = Written.output := funext fun w => by cases w <;> rfl
  cases hout
  show Piece.renderAll t.program.encoding (ws.map Written.piece) = _
  rw [henc, Piece.renderAll, List.map_map, hrender]

/-- A value that comes out of a function, and one of a loop. -/
theorem CompiledTemplate.output_encoded_function :
    let m : Ir.Module :=
      { format := Ir.formatVersion, space := "", className := "Page", baseType := "Base", modelType := "dynamic"
        usings := []
        layout := none, layoutInherited := false, imports := [], sections := []
        functions := [⟨"same", ["x"], .var "x", none⟩]
        body := [.write "<p>", .bind "v" (.call (.function 0) [.model]) none, .emit (.var "v") none,
          .forEach "i" (.literal (.array [.string "\"", .null])) [.emit (.var "i") none, .write "</p>"] none] }
    let t : CompiledTemplate := ⟨"page", ⟨"Page", by decide⟩, .dynamic, ⟨m, [], .html⟩, none, none, none⟩
    let host : Host Unit := ⟨fun _ _ _ s => (.ok "", s)⟩
    (t.execute (.string "<b>") host ⟨{}, ()⟩).1 = .ok "<p>&lt;b&gt;&quot;</p></p>" ∧
      ∃ ws d, t.WritesAll (.string "<b>") {} [] m.body ws d ∧
        "<p>&lt;b&gt;&quot;</p></p>" = String.join (ws.map Written.output) := by
  intro m t host
  have hplain : t.program.Plain := by
    refine ⟨fun c hc => ?_, fun f hf c hc => ?_⟩
    · cases List.mem_singleton.mp hc
      trivial
    · cases List.mem_singleton.mp hf
      cases hc
  have hrun : (t.execute (.string "<b>") host ⟨{}, ()⟩).1 = .ok "<p>&lt;b&gt;&quot;</p></p>" := by rfl
  exact ⟨hrun, (CompiledTemplate.output_encoded rfl hplain).1 _ host ⟨{}, ()⟩ _ hrun⟩

end Stencil
