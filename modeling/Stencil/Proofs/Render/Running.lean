import Stencil.Proofs.Render.Failing

/-! How statements run.

A run of statements fails only where it comes to an expression that fails or to a value that cannot be written or
walked through, where it registers a section, or in what is around the code. -/

namespace Stencil

open Ir (Expr Stmt Branch)

variable {σ : Type}

namespace Ir

/-- The name that a statement binds for the statements after it. -/
def Stmt.binds : Stmt → List String
  | .bind name .. => [name]
  | _ => []

/-- The condition of a branch. -/
def Branch.cond : Branch → Expr
  | .mk cond _ => cond

/-- The expressions that a statement evaluates itself. -/
def Stmt.heads : Stmt → List Expr
  | .emit e _ | .bind _ e _ | .forEach _ e _ _ => [e]
  | .ifElse branches _ _ => branches.map Branch.cond
  | .write _ | .defineSection _ => []

end Ir

/-- Running statements under names in scope comes to a statement under other names. -/
inductive Reaches : List String → List Stmt → List String → Stmt → Prop
  | here {names : List String} {s : Stmt} {ss : List Stmt} : Reaches names (s :: ss) names s
  | later {names names' : List String} {s s' : Stmt} {ss : List Stmt} (h : Reaches (s.binds ++ names) ss names' s') :
      Reaches names (s :: ss) names' s'
  | branch {names names' : List String} {cond : Expr} {body : List Stmt} {branches : List Branch}
      {otherwise : Option (List Stmt)} {pos : Option SourcePos} {ss : List Stmt} {s' : Stmt}
      (hb : .mk cond body ∈ branches) (h : Reaches names body names' s') :
      Reaches names (.ifElse branches otherwise pos :: ss) names' s'
  | otherwise {names names' : List String} {body : List Stmt} {branches : List Branch} {pos : Option SourcePos}
      {ss : List Stmt} {s' : Stmt} (h : Reaches names body names' s') :
      Reaches names (.ifElse branches (some body) pos :: ss) names' s'
  | loop {names names' : List String} {v : String} {e : Expr} {body : List Stmt} {pos : Option SourcePos}
      {ss : List Stmt} {s' : Stmt} (h : Reaches (v :: names) body names' s') :
      Reaches names (.forEach v e body pos :: ss) names' s'

theorem Reaches.of_head {names names' : List String} {s s' : Stmt} {ss : List Stmt}
    (h : Reaches names [s] names' s') : Reaches names (s :: ss) names' s' := by
  cases h with
  | here => exact .here
  | later h => cases h
  | branch hb h => exact .branch hb h
  | otherwise h => exact .otherwise h
  | loop h => exact .loop h

/-- Running statements under names in scope comes to evaluating an expression under other names. -/
inductive Program.Comes (p : Program) (names : List String) (ss : List Stmt) : List String → Expr → Prop
  | head {names' names'' : List String} {s : Stmt} {e e' : Expr} (hs : Reaches names ss names' s) (he : e ∈ s.heads)
      (hv : p.Evaluates names' e names'' e') : Comes p names ss names'' e'

/-- Running statements raises a fault, given how expressions fail by themselves. -/
inductive Program.Raises (p : Program) (F : List String → Expr → Fault → Prop) (names : List String)
    (ss : List Stmt) : Fault → Prop
  | expr {names' : List String} {e : Expr} {f : Fault} (hc : p.Comes names ss names' e) (hf : F names' e f) :
      Raises p F names ss f
  | output {names' : List String} {e : Expr} {pos : Option SourcePos} {kind : String}
      (hs : Reaches names ss names' (.emit e pos)) : Raises p F names ss (.cause (.notPrintable kind))
  | iteration {names' : List String} {v : String} {e : Expr} {body : List Stmt} {pos : Option SourcePos}
      {kind : String} (hs : Reaches names ss names' (.forEach v e body pos)) :
      Raises p F names ss (.cause (.notIterable kind))

theorem Program.Raises.within {p : Program} {F : List String → Expr → Fault → Prop} {names names' : List String}
    {ss ss' : List Stmt} {f : Fault} (h : p.Raises F names' ss' f)
    (hs : ∀ n s, Reaches names' ss' n s → Reaches names ss n s) : p.Raises F names ss f := by
  cases h with
  | expr hc hf =>
    obtain ⟨hr, he, hv⟩ := hc
    exact .expr (.head (hs _ _ hr) he hv) hf
  | output hr => exact .output (hs _ _ hr)
  | iteration hr => exact .iteration (hs _ _ hr)

/-- What a fault becomes in the code of a template: a cause gets a place. -/
inductive Placed (template : String) : Fault → Halt → Prop
  | cause {c : ExecutionCause} {pos : Option SourcePos} : Placed template (.cause c) (.error (.execution ⟨template, pos, c⟩))
  | nested {h : Halt} : Placed template (.nested h) h

/-- The faults of statements are among the failures that are admitted, and so is what becomes of registering the
sections that the statements register. -/
structure Machine.Admits (m : Machine σ) (I : Scene σ → Prop) (E : Halt → Prop) (names : List String)
    (ss : List Stmt) : Prop where
  raises : ∀ f h, m.compiled.program.Raises (m.compiled.program.Fails m.model) names ss f →
    Placed m.compiled.template f h → E h
  registers : ∀ names' index (locals : Locals), Reaches names ss names' (.defineSection index) →
    locals.names = names' → Keeps I E (fun _ => True) (m.register index locals)

namespace Machine

variable {m : Machine σ} {I : Scene σ → Prop} {E : Halt → Prop}

theorem Admits.within {names names' : List String} {ss ss' : List Stmt} (h : m.Admits I E names ss)
    (hs : ∀ n s, Reaches names' ss' n s → Reaches names ss n s) : m.Admits I E names' ss' where
  raises f g hf := h.raises f g (hf.within hs)
  registers n index locals hr := h.registers n index locals (hs _ _ hr)

/-- The faults of an evaluation are admitted as failures at any place in the template. -/
theorem at_keeps {α : Type} {P : α → Prop} {pos : Option SourcePos} {x : Evaluation σ α}
    (hx : Keeps I (fun f => ∀ h, Placed m.compiled.template f h → E h) P x) :
    Keeps I E P (x.at m.compiled.template pos) := by
  refine hx.adapt fun f hf => ?_
  cases f with
  | cause c => exact hf _ .cause
  | nested h => exact hf _ .nested

theorem evalAt_keeps (hm : m.Surrounded I E) {locals : Locals} {s : Stmt} {ss : List Stmt}
    (h : m.Admits I E locals.names (s :: ss)) {e : Expr} (he : e ∈ s.heads) {pos : Option SourcePos} :
    Keeps I E (fun _ => True) (m.evalAt pos locals e) := by
  have heval := evalTo_accounts hm maxCallDepth
    (fun f => ∀ h, Placed m.compiled.template f h → E h) locals e ?_ ?_
  · exact at_keeps (heval.mono (fun _ h => h) fun _ _ => trivial)
  · intro h hh g hg
    cases hg
    exact hh
  · intro names' e' f hv hf g hg
    exact h.raises f g (.expr (.head .here he hv) hf) hg

mutual

theorem exec_keeps (hm : m.Surrounded I E) (locals : Locals) :
    (s : Stmt) → m.Admits I E locals.names [s] →
    Keeps I E (fun r => r.1.names = s.binds ++ locals.names) (m.exec locals s)
  | .write text => fun _ => .pure rfl
  | .emit e pos => fun h => by
    -- Only a value has to be printed; markup is written as it is.
    refine (evalAt_keeps hm h (List.mem_singleton_self _)).bind fun v _ => ?_
    refine Keeps.bind (P := fun _ => True) (at_keeps ?_) fun piece _ => .pure rfl
    cases v with
    | markup text => exact .pure trivial
    | value v =>
      refine Keeps.bind (P := fun _ => True) ?_ fun text _ => .pure trivial
      exact need_keeps (fun _ g hg => h.raises _ g (.output .here) hg) fun _ _ => trivial
  | .bind name e pos => fun h => by
    refine (evalAt_keeps hm h (List.mem_singleton_self _)).bind fun v _ => ?_
    exact .pure rfl
  | .ifElse branches otherwise pos => fun h => by
    rw [exec.eq_def]
    dsimp only
    have hbranches := execBranches_keeps hm locals pos branches otherwise pos h branches fun _ hb => hb
    refine hbranches.bind fun pieces _ => ?_
    cases pieces with
    | some pieces => exact .pure rfl
    | none =>
      cases otherwise with
      | none => exact .pure rfl
      | some body =>
        have hbody := execAll_keeps hm locals body (h.within fun _ _ hr => .otherwise hr)
        exact hbody.bind fun pieces _ => .pure rfl
  | .forEach name source body pos => fun h => by
    refine (evalAt_keeps hm h (List.mem_singleton_self _)).bind fun v _ => ?_
    refine Keeps.bind (P := fun _ => True) (at_keeps ?_) fun vs _ => ?_
    · exact need_keeps (fun _ g hg => h.raises _ g (.iteration .here) hg) fun _ _ => trivial
    · refine Keeps.bind (Keeps.mapM (P := fun _ => True) fun v _ => ?_) fun pieces _ => .pure rfl
      exact execAll_keeps hm ((name, v) :: locals) body (h.within fun _ _ hr => .loop hr)
  | .defineSection index => fun h => by
    refine (h.registers _ index locals .here rfl).bind fun _ _ => ?_
    exact .pure rfl

theorem execAll_keeps (hm : m.Surrounded I E) (locals : Locals) :
    (ss : List Stmt) → m.Admits I E locals.names ss → Keeps I E (fun _ => True) (m.execAll locals ss)
  | [] => fun _ => .pure trivial
  | s :: ss => fun h => by
    refine (exec_keeps hm locals s (h.within fun _ _ hr => hr.of_head)).bind fun r hr => ?_
    have hrest := execAll_keeps hm r.1 ss (h.within fun _ _ hs => .later (hr ▸ hs))
    exact hrest.bind fun pieces _ => .pure trivial

theorem execBranches_keeps (hm : m.Surrounded I E) (locals : Locals) (pos : Option SourcePos)
    (branches : List Branch) (otherwise : Option (List Stmt)) (at' : Option SourcePos)
    (h : m.Admits I E locals.names [.ifElse branches otherwise at']) :
    (bs : List Branch) → (∀ b ∈ bs, b ∈ branches) →
    Keeps I E (fun _ => True) (m.execBranches locals pos bs)
  | [] => fun _ => .pure trivial
  | .mk cond body :: bs => fun hbs => by
    have hmem := hbs _ List.mem_cons_self
    refine (evalAt_keeps hm h (List.mem_map.mpr ⟨_, hmem, rfl⟩)).bind fun v _ => ?_
    split
    · have hbody := execAll_keeps hm locals body (h.within fun _ _ hr => .branch hmem hr)
      exact hbody.bind fun pieces _ => .pure trivial
    · exact execBranches_keeps hm locals pos branches otherwise at' h bs fun b hb => hbs b (List.mem_cons_of_mem _ hb)

end

/-- The output of statements fails only as the statements do. -/
theorem output_keeps (hm : m.Surrounded I E) {locals : Locals} {body : List Stmt}
    (h : m.Admits I E locals.names body) : Keeps I E (fun _ => True) (m.output locals body) :=
  (execAll_keeps hm locals body h).bind fun _ _ => .pure trivial

end Machine

end Stencil
