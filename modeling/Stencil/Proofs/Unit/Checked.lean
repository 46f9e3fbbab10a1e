import Stencil.Proofs.Render.Running
import Stencil.Proofs.Unit.Loaded

/-! What the code of a checked unit comes to.

The names in scope for the checker are locals when the code runs, so whatever a run comes to stands for something that
was checked under names that are bound there. What is checked fails only for reasons that no check rules out. -/

namespace Stencil

open Ir (Builtin)

/-- The model type declares members, and the value is an object that has all of them. -/
def ModelType.Describes (m : ModelType) (v : Json) : Prop :=
  ∃ members fields, m.members = some members ∧ v = .object fields ∧ ∀ n ∈ members, (Json.find? fields n).isSome

/-- Causes that the checks rule out wherever the code stands: names, slots and sections that are not there. -/
inductive ExecutionCause.RuledOut : ExecutionCause → Prop
  | undefinedName {n : String} : RuledOut (.undefinedName n)
  | invalidBinary {fault : BinaryFault} : RuledOut (.invalidBinary fault)
  | duplicateSection {n : String} : RuledOut (.duplicateSection n)
  | invalidSectionName : RuledOut .invalidSectionName

/-- What an expression of a checked program never fails with: a cause that is ruled out, anything at a call of a helper
with a number of arguments that it does not take, and a member that the model has. -/
inductive Program.Forbidden (p : Program) (modelType : ModelType) (model : Json) : Ir.Expr → Fault → Prop
  | cause {e : Ir.Expr} {c : ExecutionCause} (hc : c.RuledOut) : Forbidden p modelType model e (.cause c)
  | arity {slot : Nat} {args : List Ir.Expr} {h : Helper} {f : Fault} (hh : p.helpers[slot]? = some h)
      (hc : h.arity.accepts args.length = false) : Forbidden p modelType model (.call (.helper slot) args) f
  | member {n target : String} (hd : modelType.Describes model) :
      Forbidden p modelType model (.member .model n) (.cause (.memberNotFound target n))

/-- An expression of a checked program can fail by itself. -/
def Program.FailsChecked (p : Program) (modelType : ModelType) (model : Json) (names : List String) (e : Ir.Expr)
    (f : Fault) : Prop := p.Fails model names e f ∧ ¬p.Forbidden modelType model e f

/-- The statements of a module: its body, and the bodies of its sections. -/
inductive Ir.Module.Code (m : Ir.Module) : List Ir.Stmt → Prop
  | body : Code m m.body
  | ofSection {s : Ir.Section} (hs : s ∈ m.sections) : Code m s.body

namespace Unit

variable {sc : Scope} {k : Linkage} {p : Program}

/-! ### Observations -/

theorem ResolvesAll.length_eq {locals : List String} {es : List Expr} {es' : List Ir.Expr}
    (h : ResolvesAll sc k locals es es') : es'.length = es.length := by
  induction es generalizing es' with
  | nil =>
    cases h
    rfl
  | cons e es ih =>
    cases h with
    | cons _ hs => exact congrArg (· + 1) (ih hs)

theorem ResolvesAll.of_mem {locals : List String} {es : List Expr} {es' : List Ir.Expr}
    (h : ResolvesAll sc k locals es es') {e' : Ir.Expr} (he : e' ∈ es') : ∃ e, Resolves sc k locals e e' := by
  induction es generalizing es' with
  | nil =>
    cases h
    cases he
  | cons e es ih =>
    cases h with
    | cons hr hs =>
      rcases List.mem_cons.mp he with rfl | he
      · exact ⟨e, hr⟩
      · exact ih hs he

theorem ResolvesBranches.of_mem {locals : List String} {branches : List Branch} {bs : List Ir.Branch}
    (h : ResolvesBranches sc k locals branches bs) {b : Ir.Branch} (hb : b ∈ bs) :
    ∃ cond body cond' ss, b = .mk cond' ss ∧ Resolves sc k locals cond cond' ∧ ResolvesStmts sc k locals body ss := by
  induction branches generalizing bs with
  | nil =>
    cases h
    cases hb
  | cons branch branches ih =>
    cases h with
    | cons hc hbody hs =>
      rcases List.mem_cons.mp hb with rfl | hb
      · exact ⟨_, _, _, _, rfl, hc, hbody⟩
      · exact ih hs hb

theorem ResolvesStmt.binds_eq {locals : List String} {s : Stmt} {s' : Ir.Stmt} (h : ResolvesStmt sc k locals s s') :
    s'.binds = s.binds := by
  cases h <;> rfl

theorem ResolvesStmt.of_mem_heads {locals : List String} {s : Stmt} {s' : Ir.Stmt}
    (h : ResolvesStmt sc k locals s s') {e' : Ir.Expr} (he : e' ∈ s'.heads) : ∃ e, Resolves sc k locals e e' := by
  cases h with
  | write text => cases he
  | emit hr | var hr | forEach hr _ =>
    cases List.mem_singleton.mp he
    exact ⟨_, hr⟩
  | ifElse hb _ =>
    obtain ⟨b, hmem, rfl⟩ := List.mem_map.mp he
    obtain ⟨cond, -, cond', ss, rfl, hc, -⟩ := hb.of_mem hmem
    exact ⟨cond, hc⟩

/-! ### What a run comes to -/

/-- What evaluating a checked expression comes to is checked. -/
theorem Resolves.evaluates (hfunctions : List.Forall₂ (RealizesFunction sc k) sc.functions p.module.functions)
    {names names' locals : List String} {e : Expr} {e' e'' : Ir.Expr} (hr : Resolves sc k locals e e')
    (h : p.Evaluates names e' names' e'') :
    ∃ locals' e₁, Resolves sc k locals' e₁ e'' ∧ (locals ⊆ names → locals' ⊆ names') := by
  induction h generalizing locals e with
  | here => exact ⟨locals, e, hr, id⟩
  | target _ ih =>
    cases hr with
    | member ht _ => exact ih ht
  | argument ha _ ih =>
    cases hr with
    | call _ hargs =>
      obtain ⟨a, hra⟩ := hargs.of_mem ha
      exact ih hra
  | function hf _ ih =>
    cases hr with
    | call hc hargs =>
      cases hc with
      | function _ _ hd hcount =>
        obtain ⟨f, hf', hfun⟩ := forall₂_getElem? hfunctions hd
        obtain rfl : _ = f := Option.some.inj (hf.symm.trans hf')
        obtain ⟨locals', e₁, hr', hsub⟩ := ih hfun.body
        -- The body is in the scope of the function's parameters, which are the names that the call binds.
        refine ⟨locals', e₁, hr', fun _ => hsub fun n hn => ?_⟩
        rw [hargs.length_eq, ← hcount, List.take_of_length_le (by rw [hfun.params, List.length_map])]
        exact List.mem_reverse.mpr hn
  | operand _ ih =>
    cases hr with
    | not ho => exact ih ho
  | left _ ih =>
    cases hr with
    | binary hl _ => exact ih hl
  | right _ ih =>
    cases hr with
    | binary _ hr => exact ih hr

/-- What running checked statements comes to is checked. -/
theorem ResolvesStmts.reaches {names names' locals : List String} {ss : List Stmt} {ss' : List Ir.Stmt}
    {s' : Ir.Stmt} (hr : ResolvesStmts sc k locals ss ss') (h : Reaches names ss' names' s') :
    ∃ locals' s, ResolvesStmt sc k locals' s s' ∧ (locals ⊆ names → locals' ⊆ names') := by
  induction h generalizing locals ss with
  | here =>
    cases hr with
    | cons hs _ => exact ⟨locals, _, hs, id⟩
  | later _ ih =>
    cases hr with
    | cons hs hrest =>
      obtain ⟨locals', s, hs', hsub⟩ := ih hrest
      refine ⟨locals', s, hs', fun hl => hsub fun n hn => ?_⟩
      rcases List.mem_append.mp hn with hn | hn
      · exact List.mem_append_left _ (hs.binds_eq ▸ hn)
      · exact List.mem_append_right _ (hl hn)
  | branch hb _ ih =>
    cases hr with
    | cons hs _ =>
      cases hs with
      | ifElse hbs _ =>
        obtain ⟨_, _, _, _, heq, -, hbody⟩ := hbs.of_mem hb
        cases heq
        exact ih hbody
  | otherwise _ ih =>
    cases hr with
    | cons hs _ =>
      cases hs with
      | ifElse _ ho =>
        cases ho with
        | some hbody => exact ih hbody
  | loop _ ih =>
    cases hr with
    | cons hs _ =>
      cases hs with
      | forEach _ hbody =>
        obtain ⟨locals', s, hs', hsub⟩ := ih hbody
        refine ⟨locals', s, hs', fun hl => hsub fun n hn => ?_⟩
        rcases List.mem_cons.mp hn with rfl | hn
        · exact List.mem_cons_self
        · exact List.mem_cons_of_mem _ (hl hn)

/-- The expressions that running checked statements comes to are checked. -/
theorem ResolvesStmts.comes (hfunctions : List.Forall₂ (RealizesFunction sc k) sc.functions p.module.functions)
    {names names' locals : List String} {ss : List Stmt} {ss' : List Ir.Stmt} {e' : Ir.Expr}
    (hr : ResolvesStmts sc k locals ss ss') (h : p.Comes names ss' names' e') :
    ∃ locals' e, Resolves sc k locals' e e' ∧ (locals ⊆ names → locals' ⊆ names') := by
  obtain ⟨hs, he, hv⟩ := h
  obtain ⟨locals₁, s, hs', hsub₁⟩ := hr.reaches hs
  obtain ⟨e, hre⟩ := hs'.of_mem_heads he
  obtain ⟨locals₂, e₁, hr₁, hsub₂⟩ := hre.evaluates hfunctions hv
  exact ⟨locals₂, e₁, hr₁, fun hl => hsub₂ (hsub₁ hl)⟩

/-- What running a checked execute block comes to is checked, but for the registering of its sections. -/
theorem ResolvesBody.reaches {names names' locals : List String} {ss : List Stmt} {ss' : List Ir.Stmt}
    {regs : List (Nat × List String)} {s' : Ir.Stmt} (hr : ResolvesBody sc k locals ss ss' regs)
    (h : Reaches names ss' names' s') :
    (∃ locals' s, ResolvesStmt sc k locals' s s') ∨ ∃ index, s' = .defineSection index := by
  induction hr generalizing names with
  | nil => cases h
  | @plain locals stmt stmt' ss ss' regs hs _ ih =>
    have hone : ∀ n, Reaches n [stmt'] names' s' → ∃ locals' s, ResolvesStmt sc k locals' s s' := by
      intro n hn
      obtain ⟨locals', s, hs', -⟩ := (ResolvesStmts.cons hs .nil).reaches hn
      exact ⟨locals', s, hs'⟩
    cases h with
    | here => exact .inl ⟨locals, stmt, hs⟩
    | later h => exact ih h
    | branch hb h => exact .inl (hone _ (.branch hb h))
    | otherwise h => exact .inl (hone _ (.otherwise h))
    | loop h => exact .inl (hone _ (.loop h))
  | @register _ _ index =>
    rename_i ih
    cases h with
    | here => exact .inr ⟨index, rfl⟩
    | later h => exact ih h

/-- The expressions that the code of a checked module comes to are checked. -/
theorem Realizes.comes {execute : List Stmt} (h : Realizes sc k execute p.module) {names names' : List String}
    {code : List Ir.Stmt} (hcode : p.module.Code code) {e' : Ir.Expr} (hc : p.Comes names code names' e') :
    ∃ locals e, Resolves sc k locals e e' := by
  cases hcode with
  | body =>
    obtain ⟨regs, hbody, -⟩ := h.body
    obtain ⟨hs, he, hv⟩ := hc
    rcases hbody.reaches hs with ⟨locals, s, hs'⟩ | ⟨index, rfl⟩
    · obtain ⟨e, hre⟩ := hs'.of_mem_heads he
      obtain ⟨locals', e₁, hr₁, -⟩ := hre.evaluates h.functions hv
      exact ⟨locals', e₁, hr₁⟩
    · cases he
  | @ofSection s hs =>
    obtain ⟨index, hlt, rfl⟩ := List.getElem_of_mem hs
    obtain ⟨locals, decl, body, -, hsection, hr⟩ := h.sections index hlt
    rw [List.getElem?_eq_getElem hlt, Option.some.injEq] at hsection
    rw [hsection] at hc
    obtain ⟨locals', e, hre, -⟩ := hr.comes h.functions hc
    exact ⟨locals', e, hre⟩

/-- Checked statements register no sections. -/
theorem ResolvesStmts.not_reaches_defineSection {names names' locals : List String} {ss : List Stmt}
    {ss' : List Ir.Stmt} {index : Nat} (hr : ResolvesStmts sc k locals ss ss') :
    ¬Reaches names ss' names' (.defineSection index) := by
  intro h
  obtain ⟨_, s, hs, -⟩ := hr.reaches h
  cases hs

/-! ### Failures -/

/-- A checked call of a helper goes to the one that name resolution picks, with a number of arguments it takes. -/
theorem Resolves.picks {locals : List String} {e : Expr} {slot : Nat} {args : List Ir.Expr}
    (hr : Resolves sc k locals e (.call (.helper slot) args)) :
    ∃ target r name h, Picks sc locals target r name h ∧ k.slot slot r name h ∧ h.arity.accepts args.length = true := by
  cases hr with
  | @call target _ _ _ hc hargs =>
    cases hc with
    | @helper _ _ r name h hpicks hslot haccepts =>
      exact ⟨target, r, name, h, hpicks, hslot, hargs.length_eq ▸ haccepts⟩

theorem Resolves.helper_accepts (hslots : ∀ slot r name h, k.slot slot r name h → p.helpers[slot]? = some h)
    {locals : List String} {e : Expr} {slot : Nat} {args : List Ir.Expr}
    (hr : Resolves sc k locals e (.call (.helper slot) args)) {h : Helper} (hh : p.helpers[slot]? = some h) :
    ¬h.arity.accepts args.length = false := by
  obtain ⟨_, r, name, g, -, hslot, haccepts⟩ := hr.picks
  obtain rfl : g = h := Option.some.inj ((hslots _ _ _ _ hslot).symm.trans hh)
  rw [haccepts]
  exact Bool.noConfusion

/-- A checked expression does not fail with what the checks rule out. -/
theorem Resolves.not_forbidden (hfunctions : List.Forall₂ (RealizesFunction sc k) sc.functions p.module.functions)
    (hslots : ∀ slot r name h, k.slot slot r name h → p.helpers[slot]? = some h) {names locals : List String}
    {e : Expr} {e' : Ir.Expr} {f : Stencil.Fault} {model : Json} (hr : Resolves sc k locals e e') (hl : locals ⊆ names)
    (hf : p.Fails model names e' f) : ¬p.Forbidden sc.options.modelType model e' f := by
  intro hforbidden
  cases hf with
  | undefined hn =>
    cases hr with
    | var hmem => exact hn (hl hmem)
  | @member target n v hv hm =>
    cases hforbidden with
    | cause hc => cases hc
    | member hd =>
      obtain ⟨members, fields, hmembers, hmodel, hall⟩ := hd
      -- The model's type has the member, so the model has it.
      obtain rfl := hm rfl
      cases hr with
      | @member target m _ ht haccepts =>
        cases ht with
        | model hlocal =>
          have hmem : m.name ∈ members := by
            have haccept := haccepts (by simpa [Expr.isModel] using hlocal)
            rw [ModelType.accepts, hmembers] at haccept
            exact List.contains_iff_mem.mp haccept
          obtain ⟨w, hw⟩ := Option.isSome_iff_exists.mp (hall _ hmem)
          rw [hmodel, Json.member?, hw] at hv
          cases hv
  | builtin hb =>
    cases hforbidden with
    | cause hc => cases hb <;> cases hc
  | recursion =>
    cases hforbidden with
    | cause hc => cases hc
  | functionSlot hnone =>
    cases hr with
    | call hc _ =>
      cases hc with
      | function _ _ hd _ =>
        -- What the call resolves to is a function of the module.
        obtain ⟨f, hf, -⟩ := forall₂_getElem? hfunctions hd
        rw [hnone] at hf
        cases hf
  | helperSlot hnone =>
    cases hr with
    | call hc _ =>
      cases hc with
      | helper _ hs _ =>
        rw [hslots _ _ _ _ hs] at hnone
        cases hnone
  | missingArgument _ _ _ =>
    cases hforbidden with
    | arity hh hrejects => exact hr.helper_accepts hslots hh hrejects
  | helper _ _ _ | markup _ _ _ _ =>
    cases hforbidden with
    | cause hc => cases hc
    | arity hh hrejects => exact hr.helper_accepts hslots hh hrejects

/-- Checked statements raise only what no check rules out. -/
theorem ResolvesStmts.raises (hfunctions : List.Forall₂ (RealizesFunction sc k) sc.functions p.module.functions)
    (hslots : ∀ slot r name h, k.slot slot r name h → p.helpers[slot]? = some h) {names locals : List String}
    {ss : List Stmt} {ss' : List Ir.Stmt} {f : Stencil.Fault} {model : Json} (hr : ResolvesStmts sc k locals ss ss')
    (hl : locals ⊆ names) (hf : p.Raises (p.Fails model) names ss' f) :
    p.Raises (p.FailsChecked sc.options.modelType model) names ss' f := by
  cases hf with
  | expr hc hfails =>
    obtain ⟨locals', e, hre, hsub⟩ := hr.comes hfunctions hc
    exact .expr hc ⟨hfails, hre.not_forbidden hfunctions hslots (hsub hl) hfails⟩
  | output hs => exact .output hs
  | iteration hs => exact .iteration hs

end Unit

end Stencil
