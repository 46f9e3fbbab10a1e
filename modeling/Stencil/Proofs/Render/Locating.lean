import Stencil.Proofs.Markup.Documents
import Stencil.Proofs.Render.Tracing

/-! Where failures are reported.

Running the statements that nodes of a document have become goes through the code of the nodes: it comes to one piece of
code after another, until one of them fails. The failure is reported where the code stands in the template. Only the
conditions of an `ifElse` share one place, that of the first of them. -/

namespace Stencil

open Ir (Expr Stmt)
open Markup (Node Fragment)

variable {σ : Type}

/-! ### What nodes become -/

mutual

/-- The statement is what becomes of the node: of the same kind, with expressions that its code means, and with its places. -/
inductive Becomes (Means : List Char → Expr → Prop) : Node → Stmt → Prop
  | text {text : String} {pos : SourcePos} : Becomes Means (.text text pos) (.write text)
  | expr {code : String} {pos : SourcePos} {e : Expr} (he : Means code.toList e) :
      Becomes Means (.expr code pos) (.emit e (some pos))
  | var {name code : String} {pos : SourcePos} {e : Expr} (he : Means code.toList e) :
      Becomes Means (.var name code pos) (.bind name e (some pos))
  | ifElse {cond : String} {pos : SourcePos} {body : List Node} {rest : List Markup.Branch} {otherwise : Option (List Node)}
      {bs : List Ir.Branch} {block : Option (List Stmt)} (hb : BecomesBranches Means (.mk cond pos body :: rest) bs)
      (ho : BecomesBlock Means otherwise block) :
      Becomes Means (.ifElse (.mk cond pos body :: rest) otherwise) (.ifElse bs block (some pos))
  | forEach {var source : String} {pos : SourcePos} {body : List Node} {e : Expr} {ss : List Stmt}
      (he : Means source.toList e) (hb : BecomesAll Means body ss) :
      Becomes Means (.forEach var source pos body) (.forEach var e ss (some pos))
  | sectionDef {name : String} {pos : SourcePos} {body : List Node} {index : Nat} :
      Becomes Means (.sectionDef name pos body) (.defineSection index)

/-- The branches are what becomes of the alternatives. -/
inductive BecomesBranches (Means : List Char → Expr → Prop) : List Markup.Branch → List Ir.Branch → Prop
  | nil : BecomesBranches Means [] []
  | cons {cond : String} {pos : SourcePos} {body : List Node} {rest : List Markup.Branch} {e : Expr} {ss : List Stmt}
      {bs : List Ir.Branch} (he : Means cond.toList e) (hb : BecomesAll Means body ss) (hr : BecomesBranches Means rest bs) :
      BecomesBranches Means (.mk cond pos body :: rest) (.mk e ss :: bs)

/-- The block is what becomes of the nodes, which may be missing. -/
inductive BecomesBlock (Means : List Char → Expr → Prop) : Option (List Node) → Option (List Stmt) → Prop
  | none : BecomesBlock Means none none
  | some {body : List Node} {ss : List Stmt} (hb : BecomesAll Means body ss) : BecomesBlock Means (some body) (some ss)

/-- The statements are what becomes of the nodes, one of each. -/
inductive BecomesAll (Means : List Char → Expr → Prop) : List Node → List Stmt → Prop
  | nil : BecomesAll Means [] []
  | cons {n : Node} {ns : List Node} {s : Stmt} {ss : List Stmt} (hn : Becomes Means n s) (hs : BecomesAll Means ns ss) :
      BecomesAll Means (n :: ns) (s :: ss)

end

section
variable {Means : List Char → Expr → Prop} {code source cond name name' var : String} {pos : SourcePos} {body ns : List Node}
  {n : Node} {e : Expr} {p : Option SourcePos} {block : List Stmt} {s : Stmt} {ss : List Stmt} {bs : List Ir.Branch}

theorem Becomes.of_expr (h : Becomes Means (.expr code pos) (.emit e p)) : Means code.toList e ∧ p = some pos := by
  cases h with
  | expr he => exact ⟨he, rfl⟩

theorem Becomes.of_var (h : Becomes Means (.var name code pos) (.bind name' e p)) : Means code.toList e ∧ p = some pos := by
  cases h with
  | var he => exact ⟨he, rfl⟩

theorem Becomes.of_ifElse {branches : List Markup.Branch} {otherwise : Option (List Node)} {block : Option (List Stmt)}
    (h : Becomes Means (.ifElse branches otherwise) (.ifElse bs block p)) :
    BecomesBranches Means branches bs ∧ BecomesBlock Means otherwise block ∧
      ∀ cond pos body rest, branches = .mk cond pos body :: rest → p = some pos := by
  cases h with
  | ifElse hb ho =>
    refine ⟨hb, ho, ?_⟩
    rintro _ _ _ _ ⟨⟩
    rfl

theorem Becomes.of_forEach (h : Becomes Means (.forEach var source pos body) (.forEach name e block p)) :
    Means source.toList e ∧ BecomesAll Means body block ∧ p = some pos := by
  cases h with
  | forEach he hb => exact ⟨he, hb, rfl⟩

theorem BecomesBlock.of_some (h : BecomesBlock Means (Option.some body) (Option.some block)) :
    BecomesAll Means body block := by
  cases h with
  | some hb => exact hb

theorem BecomesBranches.of_cons {rest : List Markup.Branch}
    (h : BecomesBranches Means (.mk cond pos body :: rest) (.mk e block :: bs)) :
    Means cond.toList e ∧ BecomesAll Means body block ∧ BecomesBranches Means rest bs := by
  cases h with
  | cons he hb hr => exact ⟨he, hb, hr⟩

theorem BecomesAll.of_cons (h : BecomesAll Means (n :: ns) (s :: ss)) : Becomes Means n s ∧ BecomesAll Means ns ss := by
  cases h with
  | cons hn hs => exact ⟨hn, hs⟩

end

/-! ### What a run comes to -/

/-- What a value is for. -/
inductive Use
  | output
  | binding
  /-- The condition of an alternative; of a later one, with the place of the first. -/
  | condition (first : Option SourcePos)
  | iteration

/-- Some code of a document in a run: what it is evaluated for and as, and in what. -/
structure Occurrence (σ : Type) where
  code : Fragment
  use : Use
  expr : Expr
  locals : Locals
  scene : Scene σ

namespace Occurrence

/-- Where a failure of the code is reported. -/
def place (a : Occurrence σ) : SourcePos :=
  match a.use with
  | .condition (some first) => first
  | _ => a.code.start

theorem place_condition (code : Fragment) (first : Option SourcePos) (e : Expr) (locals : Locals) (scene : Scene σ) :
    (⟨code, .condition first, e, locals, scene⟩ : Occurrence σ).place = first.getD code.start := by
  cases first <;> rfl

/-- The code has no value, or none for what it is for. -/
inductive Fails (m : Machine σ) (a : Occurrence σ) : Fault → Prop
  | evaluation {f : Fault} {s : Scene σ} (h : m.evalTo maxCallDepth a.locals a.expr a.scene = (.error f, s)) : Fails m a f
  | output {v : Json} {s : Scene σ} (hu : a.use = .output)
      (h : m.evalTo maxCallDepth a.locals a.expr a.scene = (.ok (.value v), s)) (hv : v.printed? = none) :
      Fails m a (.cause (.notPrintable v.kind))
  | iteration {v : Evaluated} {s : Scene σ} (hu : a.use = .iteration)
      (h : m.evalTo maxCallDepth a.locals a.expr a.scene = (.ok v, s)) (hv : v.toJson.items? = none) :
      Fails m a (.cause (.notIterable v.toJson.kind))

end Occurrence

namespace Machine

mutual

/-- Running what becomes of nodes comes to some of their code. -/
inductive Comes (m : Machine σ) : List Node → List Stmt → Locals → Scene σ → Occurrence σ → Prop
  | later {n : Node} {ns : List Node} {s : Stmt} {ss : List Stmt} {locals : Locals} {scene after : Scene σ}
      {r : Locals × List Piece} {a : Occurrence σ} (hs : m.exec locals s scene = (.ok r, after))
      (h : Comes m ns ss r.1 after a) : Comes m (n :: ns) (s :: ss) locals scene a
  | expr {code : String} {pos : SourcePos} {ns : List Node} {e : Expr} {p : Option SourcePos} {ss : List Stmt}
      {locals : Locals} {scene : Scene σ} :
      Comes m (.expr code pos :: ns) (.emit e p :: ss) locals scene ⟨⟨code.toList, pos⟩, .output, e, locals, scene⟩
  | var {name name' code : String} {pos : SourcePos} {ns : List Node} {e : Expr} {p : Option SourcePos} {ss : List Stmt}
      {locals : Locals} {scene : Scene σ} :
      Comes m (.var name code pos :: ns) (.bind name' e p :: ss) locals scene
        ⟨⟨code.toList, pos⟩, .binding, e, locals, scene⟩
  | alternative {cond : String} {pos : SourcePos} {body : List Node} {rest : List Markup.Branch}
      {otherwise : Option (List Node)} {ns : List Node} {bs : List Ir.Branch} {block : Option (List Stmt)}
      {p : Option SourcePos} {ss : List Stmt} {locals : Locals} {scene : Scene σ} {a : Occurrence σ}
      (h : ComesBranches m none (.mk cond pos body :: rest) bs locals scene a) :
      Comes m (.ifElse (.mk cond pos body :: rest) otherwise :: ns) (.ifElse bs block p :: ss) locals scene a
  | otherwise {branches : List Markup.Branch} {body : List Node} {ns : List Node} {bs : List Ir.Branch} {block : List Stmt}
      {p : Option SourcePos} {ss : List Stmt} {locals : Locals} {scene after : Scene σ} {a : Occurrence σ}
      (hb : m.execBranches locals p bs scene = (.ok none, after)) (h : Comes m body block locals after a) :
      Comes m (.ifElse branches (some body) :: ns) (.ifElse bs (some block) p :: ss) locals scene a
  | source {var name source : String} {pos : SourcePos} {body ns : List Node} {e : Expr} {block : List Stmt}
      {p : Option SourcePos} {ss : List Stmt} {locals : Locals} {scene : Scene σ} :
      Comes m (.forEach var source pos body :: ns) (.forEach name e block p :: ss) locals scene
        ⟨⟨source.toList, pos⟩, .iteration, e, locals, scene⟩
  | iteration {var name source : String} {pos : SourcePos} {body ns : List Node} {e : Expr} {block : List Stmt}
      {p : Option SourcePos} {ss : List Stmt} {locals : Locals} {scene start after : Scene σ} {v : Evaluated}
      {done rest : List Json} {item : Json} {pieces : List (List Piece)} {a : Occurrence σ}
      (hv : m.evalTo maxCallDepth locals e scene = (.ok v, start)) (hitems : v.toJson.items? = some (done ++ item :: rest))
      (hdone : done.mapM (fun v => m.execAll ((name, v) :: locals) block) start = (.ok pieces, after))
      (h : Comes m body block ((name, item) :: locals) after a) :
      Comes m (.forEach var source pos body :: ns) (.forEach name e block p :: ss) locals scene a

/-- Running what becomes of alternatives comes to some of their code: of later ones, if the first one stands at a place. -/
inductive ComesBranches (m : Machine σ) :
    Option SourcePos → List Markup.Branch → List Ir.Branch → Locals → Scene σ → Occurrence σ → Prop
  | condition {first : Option SourcePos} {cond : String} {pos : SourcePos} {body : List Node} {rest : List Markup.Branch}
      {e : Expr} {block : List Stmt} {bs : List Ir.Branch} {locals : Locals} {scene : Scene σ} :
      ComesBranches m first (.mk cond pos body :: rest) (.mk e block :: bs) locals scene
        ⟨⟨cond.toList, pos⟩, .condition first, e, locals, scene⟩
  | body {first : Option SourcePos} {cond : String} {pos : SourcePos} {body : List Node} {rest : List Markup.Branch}
      {e : Expr} {block : List Stmt} {bs : List Ir.Branch} {locals : Locals} {scene after : Scene σ} {v : Evaluated}
      {a : Occurrence σ} (hv : m.evalTo maxCallDepth locals e scene = (.ok v, after)) (htruthy : v.toJson.truthy = true)
      (h : Comes m body block locals after a) :
      ComesBranches m first (.mk cond pos body :: rest) (.mk e block :: bs) locals scene a
  | later {first : Option SourcePos} {cond : String} {pos : SourcePos} {body : List Node} {rest : List Markup.Branch}
      {e : Expr} {block : List Stmt} {bs : List Ir.Branch} {locals : Locals} {scene after : Scene σ} {v : Evaluated}
      {a : Occurrence σ} (hv : m.evalTo maxCallDepth locals e scene = (.ok v, after)) (htruthy : v.toJson.truthy = false)
      (h : ComesBranches m (some (first.getD pos)) rest bs locals after a) :
      ComesBranches m first (.mk cond pos body :: rest) (.mk e block :: bs) locals scene a

end

end Machine

/-! ### What fails -/

section
variable {S ε α β : Type} {x : ExceptT ε (StateM S) α} {f : α → ExceptT ε (StateM S) β} {s s' : S}

theorem bind_of_ok {a : α} (h : x s = (.ok a, s')) : (x >>= f) s = f a s' := by
  rw [bind_run, h]

theorem bind_of_error {e : ε} (h : x s = (.error e, s')) : (x >>= f) s = (.error e, s') := by
  rw [bind_run, h]

/-- Computations in turn fail as the first or the second of them does. -/
theorem bind_eq_error {e : ε} (h : (x >>= f) s = (.error e, s')) :
    x s = (.error e, s') ∨ ∃ a s₁, x s = (.ok a, s₁) ∧ f a s₁ = (.error e, s') := by
  rcases hx : x s with ⟨e' | a, s₁⟩
  · rw [bind_of_error hx] at h
    cases h
    exact .inl rfl
  · rw [bind_of_ok hx] at h
    exact .inr ⟨a, s₁, rfl, h⟩

/-- Computations for the items of a list fail as the one for an item does that comes after those for the items before. -/
theorem mapM_eq_error {e : ε} {as : List α} (h : as.mapM f s = (.error e, s')) :
    ∃ done a rest bs s₁, as = done ++ a :: rest ∧ done.mapM f s = (.ok bs, s₁) ∧ f a s₁ = (.error e, s') := by
  induction as generalizing s with
  | nil => cases h
  | cons a as ih =>
    rw [List.mapM_cons] at h
    rcases bind_eq_error h with hfirst | ⟨b, s₁, hfirst, h⟩
    · exact ⟨[], a, as, [], s, rfl, rfl, hfirst⟩
    · rcases bind_eq_error h with hrest | ⟨bs, s₂, -, hpure⟩
      · obtain ⟨done, c, rest, bs, s₂, rfl, hdone, hc⟩ := ih hrest
        refine ⟨a :: done, c, rest, b :: bs, s₂, rfl, ?_, hc⟩
        rw [List.mapM_cons, bind_of_ok hfirst, bind_of_ok hdone]
        rfl
      · cases hpure

theorem mapM_of_error {e : ε} {done rest : List α} {a : α} {bs : List β} {s₁ : S} (hdone : done.mapM f s = (.ok bs, s₁))
    (ha : f a s₁ = (.error e, s')) : (done ++ a :: rest).mapM f s = (.error e, s') := by
  rw [List.mapM_append, bind_of_ok hdone, List.mapM_cons]
  exact bind_of_error (bind_of_error ha)

end

/-- What a fault of code at a place in a template becomes. -/
def Fault.halt (template : String) (pos : Option SourcePos) : Fault → Halt
  | .cause c => .error (.execution ⟨template, pos, c⟩)
  | .nested h => h

namespace Evaluation

variable {α : Type} {x : Evaluation σ α} {s s' : Scene σ}

theorem at_run (x : Evaluation σ α) (template : String) (pos : Option SourcePos) (s : Scene σ) :
    x.at template pos s = ((x s).1.mapError (Fault.halt template pos), (x s).2) := by
  refine congrArg (fun g => ((x s).1.mapError g, (x s).2)) (funext fun f => ?_)
  cases f <;> rfl

theorem at_of_error {f : Fault} (template : String) (pos : Option SourcePos) (h : x s = (.error f, s')) :
    x.at template pos s = (.error (f.halt template pos), s') := by
  rw [at_run, h]
  rfl

theorem at_of_ok {a : α} (template : String) (pos : Option SourcePos) (h : x s = (.ok a, s')) :
    x.at template pos s = (.ok a, s') := by
  rw [at_run, h]
  rfl

theorem at_eq_error {template : String} {pos : Option SourcePos} {h : Halt} (hx : x.at template pos s = (.error h, s')) :
    ∃ f, x s = (.error f, s') ∧ h = f.halt template pos := by
  rcases hs : x s with ⟨f | a, s₁⟩
  · rw [at_of_error template pos hs] at hx
    cases hx
    exact ⟨f, rfl, rfl⟩
  · rw [at_of_ok template pos hs] at hx
    cases hx

end Evaluation

namespace Machine

variable {m : Machine σ} {Means : List Char → Expr → Prop} {h : Halt} {f : Fault}

section
variable {locals : Locals} {scene s' : Scene σ}

theorem execAll_first {s : Stmt} {ss : List Stmt} (hs : m.exec locals s scene = (.error h, s')) :
    m.execAll locals (s :: ss) scene = (.error h, s') := bind_of_error hs

theorem execAll_rest {s : Stmt} {ss : List Stmt} {r : Locals × List Piece} {after : Scene σ}
    (hs : m.exec locals s scene = (.ok r, after)) (hss : m.execAll r.1 ss after = (.error h, s')) :
    m.execAll locals (s :: ss) scene = (.error h, s') := (bind_of_ok hs).trans (bind_of_error hss)

/-- Code that is evaluated at a place fails with what its fault becomes there. -/
theorem evalAt_error {pos : Option SourcePos} {e : Expr} (hf : m.evalTo maxCallDepth locals e scene = (.error f, s')) :
    m.evalAt pos locals e scene = (.error (f.halt m.compiled.template pos), s') :=
  Evaluation.at_of_error _ pos hf

theorem evalAt_ok {pos : Option SourcePos} {e : Expr} {v : Evaluated}
    (hv : m.evalTo maxCallDepth locals e scene = (.ok v, s')) : m.evalAt pos locals e scene = (.ok v, s') :=
  Evaluation.at_of_ok _ pos hv

theorem piece_error {v : Json} (hv : v.printed? = none) (scene : Scene σ) :
    (piece (.value v) : Evaluation σ Piece) scene = (.error (.cause (.notPrintable v.kind)), scene) := by
  rw [piece, print, hv]
  rfl

theorem items_error {v : Json} (hv : v.items? = none) (scene : Scene σ) :
    (items v : Evaluation σ (List Json)) scene = (.error (.cause (.notIterable v.kind)), scene) := by
  rw [items, hv]
  rfl

theorem items_ok {v : Json} {vs : List Json} (hv : v.items? = some vs) (scene : Scene σ) :
    (items v : Evaluation σ (List Json)) scene = (.ok vs, scene) := by
  rw [items, hv]
  rfl

theorem piece_eq_error {v : Evaluated} (hx : (piece v : Evaluation σ Piece) scene = (.error f, s')) :
    ∃ w, v = .value w ∧ w.printed? = none ∧ f = .cause (.notPrintable w.kind) := by
  cases v with
  | markup text => cases hx
  | value w =>
    cases hw : w.printed? with
    | none =>
      rw [piece_error hw] at hx
      cases hx
      exact ⟨w, rfl, hw, rfl⟩
    | some text =>
      rw [piece, print, hw] at hx
      cases hx

theorem items_eq_error {v : Json} (hx : (items v : Evaluation σ (List Json)) scene = (.error f, s')) :
    v.items? = none ∧ f = .cause (.notIterable v.kind) := by
  cases hv : v.items? with
  | none =>
    rw [items_error hv] at hx
    cases hx
    exact ⟨rfl, rfl⟩
  | some vs =>
    rw [items_ok hv] at hx
    cases hx

theorem items_eq_ok {v : Json} {vs : List Json} (hx : (items v : Evaluation σ (List Json)) scene = (.ok vs, s')) :
    v.items? = some vs ∧ s' = scene := by
  cases hv : v.items? with
  | none =>
    rw [items_error hv] at hx
    cases hx
  | some ws =>
    rw [items_ok hv] at hx
    cases hx
    exact ⟨rfl, rfl⟩

/-! What fails in a statement makes the statement fail. -/

theorem exec_emit_error {code : List Char} {pos : SourcePos} {e : Expr}
    (hf : Occurrence.Fails m ⟨⟨code, pos⟩, .output, e, locals, scene⟩ f) :
    ∃ s', m.exec locals (.emit e (some pos)) scene = (.error (f.halt m.compiled.template (some pos)), s') := by
  cases hf with
  | evaluation h => exact ⟨_, bind_of_error (evalAt_error h)⟩
  | @output v s _ h hv =>
    have hpiece := Evaluation.at_of_error m.compiled.template (some pos) (piece_error hv s)
    exact ⟨_, (bind_of_ok (evalAt_ok h)).trans (bind_of_error hpiece)⟩
  | iteration hu => cases hu

theorem exec_bind_error {name : String} {code : List Char} {pos : SourcePos} {e : Expr}
    (hf : Occurrence.Fails m ⟨⟨code, pos⟩, .binding, e, locals, scene⟩ f) :
    ∃ s', m.exec locals (.bind name e (some pos)) scene = (.error (f.halt m.compiled.template (some pos)), s') := by
  cases hf with
  | evaluation h => exact ⟨_, bind_of_error (evalAt_error h)⟩
  | output hu | iteration hu => cases hu

theorem exec_forEach_error {name : String} {code : List Char} {pos : SourcePos} {e : Expr} {block : List Stmt}
    (hf : Occurrence.Fails m ⟨⟨code, pos⟩, .iteration, e, locals, scene⟩ f) :
    ∃ s', m.exec locals (.forEach name e block (some pos)) scene =
      (.error (f.halt m.compiled.template (some pos)), s') := by
  cases hf with
  | evaluation h => exact ⟨_, bind_of_error (evalAt_error h)⟩
  | output hu => cases hu
  | @iteration v s _ h hv =>
    have hitems := Evaluation.at_of_error m.compiled.template (some pos) (items_error hv s)
    exact ⟨_, (bind_of_ok (evalAt_ok h)).trans (bind_of_error hitems)⟩

theorem exec_forEach_item_error {name : String} {pos : SourcePos} {e : Expr} {block : List Stmt} {v : Evaluated}
    {done rest : List Json} {item : Json} {pieces : List (List Piece)} {start after : Scene σ}
    (hv : m.evalTo maxCallDepth locals e scene = (.ok v, start)) (hitems : v.toJson.items? = some (done ++ item :: rest))
    (hdone : done.mapM (fun v => m.execAll ((name, v) :: locals) block) start = (.ok pieces, after))
    (hitem : m.execAll ((name, item) :: locals) block after = (.error h, s')) :
    m.exec locals (.forEach name e block (some pos)) scene = (.error h, s') := by
  have hwalk := Evaluation.at_of_ok m.compiled.template (some pos) (items_ok hitems start)
  refine (bind_of_ok (evalAt_ok hv)).trans ((bind_of_ok hwalk).trans ?_)
  exact bind_of_error (mapM_of_error hdone hitem)

section
variable {p : Option SourcePos} {bs : List Ir.Branch} {block : Option (List Stmt)} {e : Expr} {body : List Stmt}
  {after : Scene σ} {v : Evaluated}

theorem exec_ifElse_error (hbs : m.execBranches locals p bs scene = (.error h, s')) :
    m.exec locals (.ifElse bs block p) scene = (.error h, s') := by
  rw [exec.eq_def]
  exact bind_of_error hbs

theorem exec_otherwise_error (hbs : m.execBranches locals p bs scene = (.ok none, after))
    (hbody : m.execAll locals body after = (.error h, s')) :
    m.exec locals (.ifElse bs (some body) p) scene = (.error h, s') := by
  rw [exec.eq_def]
  exact (bind_of_ok hbs).trans (bind_of_error hbody)

theorem execBranches_condition_error {code : List Char} {own pos : SourcePos} {first : Option SourcePos}
    (hf : Occurrence.Fails m ⟨⟨code, own⟩, .condition first, e, locals, scene⟩ f) :
    ∃ s', m.execBranches locals (some pos) (.mk e body :: bs) scene =
      (.error (f.halt m.compiled.template (some pos)), s') := by
  cases hf with
  | @evaluation _ s' h =>
    refine ⟨s', ?_⟩
    rw [execBranches.eq_def]
    exact bind_of_error (evalAt_error h)
  | output hu | iteration hu => cases hu

theorem execBranches_body_error (hv : m.evalTo maxCallDepth locals e scene = (.ok v, after))
    (htruthy : v.toJson.truthy = true) (hbody : m.execAll locals body after = (.error h, s')) :
    m.execBranches locals p (.mk e body :: bs) scene = (.error h, s') := by
  rw [execBranches.eq_def]
  refine (bind_of_ok (evalAt_ok hv)).trans ?_
  rw [if_pos htruthy]
  exact bind_of_error hbody

theorem execBranches_later (hv : m.evalTo maxCallDepth locals e scene = (.ok v, after))
    (htruthy : v.toJson.truthy = false) :
    m.execBranches locals p (.mk e body :: bs) scene = m.execBranches locals p bs after := by
  rw [execBranches.eq_def]
  refine (bind_of_ok (evalAt_ok hv)).trans ?_
  rw [htruthy, if_neg Bool.false_ne_true]

end

end

/-! The induction is on the way to the code. What becomes of the nodes on it is taken apart by the lemmas above: a case split
would put the way out of reach of the recursion. -/

mutual

/-- If code fails that a run comes to, the run fails, and the failure is reported at the place of the code. -/
theorem Comes.fails : {ns : List Node} → {ss : List Stmt} → {locals : Locals} → {scene : Scene σ} → {a : Occurrence σ} →
    m.Comes ns ss locals scene a → BecomesAll Means ns ss → a.Fails m f →
    ∃ s', m.execAll locals ss scene = (.error (f.halt m.compiled.template (some a.place)), s')
  | _, _, _, _, _, .later hs h, hb, hf => by
    obtain ⟨s', hfails⟩ := Comes.fails h hb.of_cons.2 hf
    exact ⟨s', execAll_rest hs hfails⟩
  | _, _, _, _, _, .expr, hb, hf => by
    rw [hb.of_cons.1.of_expr.2]
    exact (exec_emit_error hf).imp fun _ => execAll_first
  | _, _, _, _, _, .var, hb, hf => by
    rw [hb.of_cons.1.of_var.2]
    exact (exec_bind_error hf).imp fun _ => execAll_first
  | _, _, _, _, _, .alternative h, hb, hf => by
    obtain ⟨hbs, -, hp⟩ := hb.of_cons.1.of_ifElse
    obtain ⟨s', hfails⟩ := ComesBranches.fails h hbs hf (by rintro _ _ _ _ ⟨⟩; rfl)
    rw [hp _ _ _ _ rfl]
    exact ⟨s', execAll_first (exec_ifElse_error hfails)⟩
  | _, _, _, _, _, .otherwise hbs h, hb, hf => by
    obtain ⟨-, ho, -⟩ := hb.of_cons.1.of_ifElse
    obtain ⟨s', hfails⟩ := Comes.fails h ho.of_some hf
    exact ⟨s', execAll_first (exec_otherwise_error hbs hfails)⟩
  | _, _, _, _, _, .source, hb, hf => by
    rw [hb.of_cons.1.of_forEach.2.2]
    exact (exec_forEach_error hf).imp fun _ => execAll_first
  | _, _, _, _, _, .iteration hv hitems hdone h, hb, hf => by
    obtain ⟨-, hblock, hp⟩ := hb.of_cons.1.of_forEach
    obtain ⟨s', hfails⟩ := Comes.fails h hblock hf
    rw [hp]
    exact ⟨s', execAll_first (exec_forEach_item_error hv hitems hdone hfails)⟩

theorem ComesBranches.fails {pos : SourcePos} : {first : Option SourcePos} → {bs : List Markup.Branch} →
    {bs' : List Ir.Branch} → {locals : Locals} → {scene : Scene σ} → {a : Occurrence σ} →
    m.ComesBranches first bs bs' locals scene a → BecomesBranches Means bs bs' → a.Fails m f →
    (∀ cond own body rest, bs = .mk cond own body :: rest → first.getD own = pos) →
    ∃ s', m.execBranches locals (some pos) bs' scene = (.error (f.halt m.compiled.template (some a.place)), s')
  | _, _, _, _, _, _, .condition, _, hf, hfirst => by
    rw [Occurrence.place_condition, hfirst _ _ _ _ rfl]
    exact execBranches_condition_error hf
  | _, _, _, _, _, _, .body hv htruthy h, hb, hf, _ => by
    obtain ⟨s', hfails⟩ := Comes.fails h hb.of_cons.2.1 hf
    exact ⟨s', execBranches_body_error hv htruthy hfails⟩
  | _, _, _, _, _, _, .later hv htruthy h, hb, hf, hfirst => by
    obtain ⟨s', hfails⟩ := ComesBranches.fails h hb.of_cons.2.2 hf fun _ _ _ _ _ => hfirst _ _ _ _ rfl
    exact ⟨s', (execBranches_later hv htruthy).trans hfails⟩

end

/-! ### The code of a run -/

mutual

/-- What a run comes to is code of the nodes, evaluated as what it means. -/
theorem Comes.code : {ns : List Node} → {ss : List Stmt} → {locals : Locals} → {scene : Scene σ} → {a : Occurrence σ} →
    m.Comes ns ss locals scene a → BecomesAll Means ns ss → a.code ∈ Node.fragmentsAll ns ∧ Means a.code.text a.expr
  | _, _, _, _, _, .later hs h, hb => (Comes.code h hb.of_cons.2).imp_left (List.mem_append_right _)
  | _, _, _, _, _, .expr, hb => ⟨List.mem_append_left _ (List.mem_singleton_self _), hb.of_cons.1.of_expr.1⟩
  | _, _, _, _, _, .var, hb => ⟨List.mem_append_left _ (List.mem_singleton_self _), hb.of_cons.1.of_var.1⟩
  | _, _, _, _, _, @Comes.alternative _ _ _ _ _ _ otherwise _ _ _ _ _ _ _ _ h, hb => by
    refine (ComesBranches.code h hb.of_cons.1.of_ifElse.1).imp_left fun hmem => List.mem_append_left _ ?_
    cases otherwise with
    | none => exact hmem
    | some body => exact List.mem_append_left _ hmem
  | _, _, _, _, _, .otherwise hbs h, hb => by
    refine (Comes.code h hb.of_cons.1.of_ifElse.2.1.of_some).imp_left fun hmem => List.mem_append_left _ ?_
    exact List.mem_append_right _ hmem
  | _, _, _, _, _, .source, hb => ⟨List.mem_append_left _ List.mem_cons_self, hb.of_cons.1.of_forEach.1⟩
  | _, _, _, _, _, .iteration hv hitems hdone h, hb => by
    refine (Comes.code h hb.of_cons.1.of_forEach.2.1).imp_left fun hmem => List.mem_append_left _ ?_
    exact List.mem_cons_of_mem _ hmem

theorem ComesBranches.code : {first : Option SourcePos} → {bs : List Markup.Branch} → {bs' : List Ir.Branch} →
    {locals : Locals} → {scene : Scene σ} → {a : Occurrence σ} → m.ComesBranches first bs bs' locals scene a →
    BecomesBranches Means bs bs' → a.code ∈ Markup.Branch.fragmentsAll bs ∧ Means a.code.text a.expr
  | _, _, _, _, _, _, .condition, hb => ⟨List.mem_cons_self, hb.of_cons.1⟩
  | _, _, _, _, _, _, .body hv htruthy h, hb => by
    refine (Comes.code h hb.of_cons.2.1).imp_left fun hmem => ?_
    exact List.mem_cons_of_mem _ (List.mem_append_left _ hmem)
  | _, _, _, _, _, _, .later hv htruthy h, hb => by
    refine (ComesBranches.code h hb.of_cons.2.2).imp_left fun hmem => ?_
    exact List.mem_cons_of_mem _ (List.mem_append_right _ hmem)

end

/-! ### Why a run fails -/

/-- The failure is that of code that a run comes to, at its place, or a section that cannot be registered, where the code
registers sections. -/
inductive Blames (m : Machine σ) (C : Occurrence σ → Prop) (registers : Bool) : Halt → Prop
  | code {a : Occurrence σ} {f : Fault} (hc : C a) (hf : a.Fails m f) :
      Blames m C registers (f.halt m.compiled.template (some a.place))
  | registering {c : ExecutionCause} (hr : registers = true)
      (hc : (∃ name, c = .duplicateSection name) ∨ c = .invalidSectionName) :
      Blames m C registers (.error (.ofCause m.compiled.template c))

theorem Blames.mono {C C' : Occurrence σ → Prop} {r r' : Bool} (h : ∀ a, C a → C' a) (hr : r = true → r' = true)
    {e : Halt} (hb : m.Blames C r e) : m.Blames C' r' e := by
  cases hb with
  | code hc hf => exact .code (h _ hc) hf
  | registering hreg hc => exact .registering (hr hreg) hc

theorem registersAny_first {s : Stmt} (h : s.registers = true) (ss : List Stmt) : Stmt.registersAny (s :: ss) = true :=
  Bool.or_eq_true_iff.mpr (.inl h)

/-! A statement fails in one of its parts. -/

section
variable {locals : Locals} {scene s' : Scene σ} {p : Option SourcePos} {bs : List Ir.Branch} {e : Expr} {body : List Stmt}

theorem evalAt_eq_error (he : m.evalAt p locals e scene = (.error h, s')) :
    ∃ f, m.evalTo maxCallDepth locals e scene = (.error f, s') ∧ h = f.halt m.compiled.template p :=
  Evaluation.at_eq_error he

theorem exec_emit_eq_error {pos : SourcePos} (code : List Char)
    (he : m.exec locals (.emit e (some pos)) scene = (.error h, s')) :
    ∃ f, Occurrence.Fails m ⟨⟨code, pos⟩, .output, e, locals, scene⟩ f ∧ h = f.halt m.compiled.template (some pos) := by
  rcases bind_eq_error he with he | ⟨v, s₁, hv, he⟩
  · obtain ⟨f, hf, rfl⟩ := evalAt_eq_error he
    exact ⟨f, .evaluation hf, rfl⟩
  · rcases bind_eq_error he with he | ⟨_, _, -, hpure⟩
    · obtain ⟨f, hf, rfl⟩ := Evaluation.at_eq_error he
      obtain ⟨w, rfl, hprinted, rfl⟩ := piece_eq_error hf
      exact ⟨_, .output rfl (Evaluation.at_eq_ok hv) hprinted, rfl⟩
    · cases hpure

theorem exec_bind_eq_error {name : String} {pos : SourcePos} (code : List Char)
    (he : m.exec locals (.bind name e (some pos)) scene = (.error h, s')) :
    ∃ f, Occurrence.Fails m ⟨⟨code, pos⟩, .binding, e, locals, scene⟩ f ∧ h = f.halt m.compiled.template (some pos) := by
  rcases bind_eq_error he with he | ⟨_, _, -, hpure⟩
  · obtain ⟨f, hf, rfl⟩ := evalAt_eq_error he
    exact ⟨f, .evaluation hf, rfl⟩
  · cases hpure

theorem exec_ifElse_eq_error {block : Option (List Stmt)} (he : m.exec locals (.ifElse bs block p) scene = (.error h, s')) :
    m.execBranches locals p bs scene = (.error h, s') ∨
      ∃ body after, block = some body ∧ m.execBranches locals p bs scene = (.ok none, after) ∧
        m.execAll locals body after = (.error h, s') := by
  rw [exec.eq_def] at he
  rcases bind_eq_error he with he | ⟨pieces, after, hbs, he⟩
  · exact .inl he
  · cases pieces with
    | some pieces => cases he
    | none =>
      cases block with
      | none => cases he
      | some body =>
        rcases bind_eq_error he with he | ⟨_, _, -, hpure⟩
        · exact .inr ⟨body, after, rfl, hbs, he⟩
        · cases hpure

/-- A loop fails by what it walks through, or in one of its rounds. -/
theorem exec_forEach_eq_error {name : String} {pos : SourcePos} (code : List Char)
    (he : m.exec locals (.forEach name e body (some pos)) scene = (.error h, s')) :
    (∃ f, Occurrence.Fails m ⟨⟨code, pos⟩, .iteration, e, locals, scene⟩ f ∧ h = f.halt m.compiled.template (some pos)) ∨
      ∃ v start done item rest pieces after, m.evalTo maxCallDepth locals e scene = (.ok v, start) ∧
        v.toJson.items? = some (done ++ item :: rest) ∧
        done.mapM (fun v => m.execAll ((name, v) :: locals) body) start = (.ok pieces, after) ∧
        m.execAll ((name, item) :: locals) body after = (.error h, s') := by
  rcases bind_eq_error he with he | ⟨v, s₁, hv, he⟩
  · obtain ⟨f, hf, rfl⟩ := evalAt_eq_error he
    exact .inl ⟨f, .evaluation hf, rfl⟩
  have hv := Evaluation.at_eq_ok hv
  rcases bind_eq_error he with he | ⟨vs, s₂, hvs, hloop⟩
  · obtain ⟨f, hf, rfl⟩ := Evaluation.at_eq_error he
    obtain ⟨hitems, rfl⟩ := items_eq_error hf
    exact .inl ⟨_, .iteration rfl hv hitems, rfl⟩
  obtain ⟨hitems, rfl⟩ := items_eq_ok (Evaluation.at_eq_ok hvs)
  rcases bind_eq_error hloop with hround | ⟨_, _, -, hpure⟩
  · obtain ⟨done, item, rest, pieces, s₃, rfl, hdone, hitem⟩ := mapM_eq_error hround
    exact .inr ⟨v, s₂, done, item, rest, pieces, s₃, hv, hitems, hdone, hitem⟩
  · cases hpure

theorem exec_defineSection_eq_error {index : Nat} (he : m.exec locals (.defineSection index) scene = (.error h, s')) :
    ∃ c, ((∃ name, c = .duplicateSection name) ∨ c = .invalidSectionName) ∧ h = .error (.ofCause m.compiled.template c) := by
  rw [exec_defineSection] at he
  split at he
  · cases he
  · rename_i c hd
    cases he
    rcases Context.define_error hd with ⟨-, rfl⟩ | ⟨-, rfl⟩
    · exact ⟨_, .inr rfl, rfl⟩
    · exact ⟨_, .inl ⟨_, rfl⟩, rfl⟩

theorem execAll_eq_error {s : Stmt} {ss : List Stmt} (he : m.execAll locals (s :: ss) scene = (.error h, s')) :
    m.exec locals s scene = (.error h, s') ∨
      ∃ r after, m.exec locals s scene = (.ok r, after) ∧ m.execAll r.1 ss after = (.error h, s') := by
  rcases bind_eq_error he with he | ⟨r, after, hr, he⟩
  · exact .inl he
  · rcases bind_eq_error he with he | ⟨_, _, -, hpure⟩
    · exact .inr ⟨r, after, hr, he⟩
    · cases hpure

/-- Branches fail by the first condition, in the body of the first, or by the branches after it. -/
theorem execBranches_eq_error (he : m.execBranches locals p (.mk e body :: bs) scene = (.error h, s')) :
    (∃ f, m.evalTo maxCallDepth locals e scene = (.error f, s') ∧ h = f.halt m.compiled.template p) ∨
      ∃ v after, m.evalTo maxCallDepth locals e scene = (.ok v, after) ∧
        (v.toJson.truthy = true ∧ m.execAll locals body after = (.error h, s') ∨
          v.toJson.truthy = false ∧ m.execBranches locals p bs after = (.error h, s')) := by
  rw [execBranches.eq_def] at he
  rcases bind_eq_error he with he | ⟨v, after, hv, he⟩
  · exact .inl (evalAt_eq_error he)
  · refine .inr ⟨v, after, Evaluation.at_eq_ok hv, ?_⟩
    split at he
    · rename_i htruthy
      rcases bind_eq_error he with he | ⟨_, _, -, hpure⟩
      · exact .inl ⟨htruthy, he⟩
      · cases hpure
    · rename_i htruthy
      exact .inr ⟨Bool.eq_false_iff.mpr htruthy, he⟩

end

/-! Here no way is given, so the induction is on the statements. -/

mutual

/-- If what becomes of a node fails, a run comes to code that fails. -/
theorem exec_blames {n : Node} {locals : Locals} {scene s' : Scene σ} : (s : Stmt) → Becomes Means n s →
    m.exec locals s scene = (.error h, s') →
    ∀ ns ss, m.Blames (m.Comes (n :: ns) (s :: ss) locals scene) (Stmt.registersAny (s :: ss)) h
  | .write _, _, he, _, _ => by cases he
  | .emit e p, hb, he, ns, ss => by
    obtain ⟨code, pos, rfl, rfl⟩ : ∃ code pos, n = .expr code pos ∧ p = some pos := by
      cases hb
      exact ⟨_, _, rfl, rfl⟩
    have hcomes : m.Comes (.expr code pos :: ns) (.emit e (some pos) :: ss) locals scene _ := .expr
    obtain ⟨f, hf, rfl⟩ := exec_emit_eq_error code.toList he
    exact .code hcomes hf
  | .bind name e p, hb, he, ns, ss => by
    cases hb with
    | @var _ code pos =>
      have hcomes : m.Comes (.var name code pos :: ns) (.bind name e (some pos) :: ss) locals scene _ := .var
      obtain ⟨f, hf, rfl⟩ := exec_bind_eq_error code.toList he
      exact .code hcomes hf
  | .ifElse bs block p, hb, he, ns, ss => by
    cases hb with
    | ifElse hbs ho =>
      -- The failure is one of the alternatives, or they all pass and it is one of the `else` block.
      rcases exec_ifElse_eq_error he with he | ⟨body, after, rfl, hnone, he⟩
      · have hblames := execBranches_blames bs hbs he none fun _ _ _ _ heq => by
          cases heq
          rfl
        refine hblames.mono (fun a ha => .alternative ha) fun hr => registersAny_first ?_ ss
        cases block with
        | none => exact hr
        | some body => exact Bool.or_eq_true_iff.mpr (.inl hr)
      · cases ho with
        | some hblock =>
          refine (execAll_blames body hblock he).mono (fun a ha => .otherwise hnone ha) fun hr =>
            registersAny_first ?_ ss
          exact Bool.or_eq_true_iff.mpr (.inr hr)
  | .forEach var e block p, hb, he, ns, ss => by
    cases hb with
    | @forEach _ source pos body _ _ _ hblock =>
      have hcomes : m.Comes (.forEach var source pos body :: ns) (.forEach var e block (some pos) :: ss) locals scene _ :=
        .source
      -- The failure is one of the collection, or one of the body for an item.
      rcases exec_forEach_eq_error source.toList he with
        ⟨f, hf, rfl⟩ | ⟨v, start, done, item, rest, pieces, after, hv, hitems, hdone, hitem⟩
      · exact .code hcomes hf
      · exact (execAll_blames block hblock hitem).mono (fun a ha => .iteration hv hitems hdone ha) fun hr =>
          registersAny_first hr ss
  | .defineSection index, _, he, _, _ => by
    obtain ⟨c, hc, rfl⟩ := exec_defineSection_eq_error he
    exact .registering rfl hc

/-- If what becomes of nodes fails, a run comes to code that fails. -/
theorem execAll_blames {ns : List Node} {locals : Locals} {scene s' : Scene σ} : (ss : List Stmt) → BecomesAll Means ns ss →
    m.execAll locals ss scene = (.error h, s') → m.Blames (m.Comes ns ss locals scene) (Stmt.registersAny ss) h
  | [], _, he => by cases he
  | s :: ss, hb, he => by
    cases hb with
    | @cons n ns _ _ hn hrest =>
      rcases execAll_eq_error he with he | ⟨r, after, hr, he⟩
      · exact exec_blames s hn he ns ss
      · exact (execAll_blames ss hrest he).mono (fun a ha => .later hr ha) fun hreg =>
          Bool.or_eq_true_iff.mpr (.inr hreg)

theorem execBranches_blames {bs : List Markup.Branch} {pos : SourcePos} {locals : Locals} {scene s' : Scene σ} :
    (bs' : List Ir.Branch) → BecomesBranches Means bs bs' → m.execBranches locals (some pos) bs' scene = (.error h, s') →
    ∀ first : Option SourcePos, (∀ cond own body rest, bs = .mk cond own body :: rest → first.getD own = pos) →
      m.Blames (m.ComesBranches first bs bs' locals scene) (Ir.Branch.registersAny bs') h
  | [], _, he, _, _ => by cases he
  | .mk e block :: bs', hb, he, first, hfirst => by
    cases hb with
    | @cons cond own body rest _ _ _ _ hbody hrest =>
      -- Every condition has the place of the first one.
      have hplace : first.getD own = pos := hfirst _ _ _ _ rfl
      rcases execBranches_eq_error he with ⟨f, hf, rfl⟩ | ⟨v, after, hv, ⟨htruthy, he⟩ | ⟨htruthy, he⟩⟩
      · have hcomes : m.ComesBranches first (.mk cond own body :: rest) (.mk e block :: bs') locals scene _ := .condition
        have hcode : m.Blames _ (Ir.Branch.registersAny (.mk e block :: bs')) _ := .code hcomes (.evaluation hf)
        rwa [Occurrence.place_condition, hplace] at hcode
      · exact (execAll_blames block hbody he).mono (fun a ha => .body hv htruthy ha) fun hr =>
          Bool.or_eq_true_iff.mpr (.inl hr)
      · exact (execBranches_blames bs' hrest he _ fun _ _ _ _ _ => hplace).mono (fun a ha => .later hv htruthy ha) fun hr =>
          Bool.or_eq_true_iff.mpr (.inr hr)

end

/-- The statements are what becomes of the nodes, and running them reports a failure where it is. -/
structure Reports (m : Machine σ) (Means : List Char → Expr → Prop) (nodes : List Node) (ss : List Stmt) (locals : Locals)
    (scene : Scene σ) : Prop where
  becomes : BecomesAll Means nodes ss
  /-- Whatever the run comes to is code of the nodes. -/
  code : ∀ a, m.Comes nodes ss locals scene a → a.code ∈ Node.fragmentsAll nodes ∧ Means a.code.text a.expr
  /-- If any of it fails, this is the failure of the run. -/
  fails : ∀ a f, m.Comes nodes ss locals scene a → a.Fails m f →
    (m.output locals ss scene).1 = .error (f.halt m.compiled.template (some a.place))
  /-- The run has no other failure, unless it registers sections. -/
  blames : ∀ h, (m.output locals ss scene).1 = .error h →
    m.Blames (m.Comes nodes ss locals scene) (Stmt.registersAny ss) h

theorem output_eq_error {locals : Locals} {ss : List Stmt} {scene : Scene σ} (hx : (m.output locals ss scene).1 = .error h) :
    ∃ s', m.execAll locals ss scene = (.error h, s') := by
  have hx : m.output locals ss scene = (.error h, (m.output locals ss scene).2) := Prod.ext hx rfl
  rcases bind_eq_error hx with hexec | ⟨_, _, -, hpure⟩
  · exact ⟨_, hexec⟩
  · cases hpure

theorem reports_of_becomes {nodes : List Node} {ss : List Stmt} (m : Machine σ) (hb : BecomesAll Means nodes ss)
    (locals : Locals) (scene : Scene σ) : m.Reports Means nodes ss locals scene where
  becomes := hb
  code _ hc := hc.code hb
  fails a f hc hf := by
    obtain ⟨s', hexec⟩ := hc.fails hb hf
    exact congrArg Prod.fst (bind_of_error hexec)
  blames h hx := by
    obtain ⟨s', hexec⟩ := output_eq_error hx
    exact execAll_blames ss hb hexec

end Machine

/-- So the place of a second condition is lost: if it fails, the failure is reported where the first one stands. -/
theorem Machine.second_condition_fails {m : Machine σ} {Means : List Char → Expr → Prop} {cond cond' : String}
    {pos pos' : SourcePos} {body body' : List Node} {rest : List Markup.Branch} {otherwise : Option (List Node)}
    {e e' : Expr} {block block' : List Stmt} {bs : List Ir.Branch} {other : Option (List Stmt)} {p : Option SourcePos}
    {locals : Locals} {scene after s' : Scene σ} {v : Evaluated} {f : Fault}
    (hb : BecomesAll Means [.ifElse (.mk cond pos body :: .mk cond' pos' body' :: rest) otherwise]
      [.ifElse (.mk e block :: .mk e' block' :: bs) other p])
    (hv : m.evalTo maxCallDepth locals e scene = (.ok v, after)) (htruthy : v.toJson.truthy = false)
    (hf : m.evalTo maxCallDepth locals e' after = (.error f, s')) :
    (m.output locals [.ifElse (.mk e block :: .mk e' block' :: bs) other p] scene).1 =
      .error (f.halt m.compiled.template (some pos)) := by
  have hcomes : m.Comes [.ifElse (.mk cond pos body :: .mk cond' pos' body' :: rest) otherwise]
      [.ifElse (.mk e block :: .mk e' block' :: bs) other p] locals scene
      ⟨⟨cond'.toList, pos'⟩, .condition (some pos), e', locals, after⟩ :=
    .alternative (.later hv htruthy .condition)
  exact (m.reports_of_becomes hb locals scene).fails _ f hcomes (.evaluation hf)

end Stencil
