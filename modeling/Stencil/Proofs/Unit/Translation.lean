import Stencil.Proofs.Unit.Loaded

/-! What statements stand for, those that register sections among them, and how it depends on the scope.

A scope matters only in which of the names that statements use it has. A name that is not the model's can be used by
statements that stand for something only in one way: as a local if its value is used, else as no local. So two scopes
under which statements stand for something can differ in the name of the model only, and only then do they stand for
different things. -/

namespace Stencil.Unit

variable {sc : Scope} {k k' : Linkage} {helpers : List Helper}

/-! ### The names that code uses -/

/-- The expression is the name. -/
def Expr.isNamed (n : String) : Expr → Bool
  | .name m _ => m == n
  | _ => false

mutual

/-- The expression uses what stands for the name in a scope: its value, or what is called by it. -/
def Expr.uses (n : String) : Expr → Bool
  | .literal .. => false
  | .name m _ => m == n
  | .member target _ => target.uses n
  | .call target args => target.isNamed n || anyUses n args
  | .not operand _ => operand.uses n
  | .binary _ lhs rhs => lhs.uses n || rhs.uses n

def anyUses (n : String) : List Expr → Bool
  | [] => false
  | e :: es => e.uses n || anyUses n es

end

mutual

/-- The statement uses what stands for the name in the scope around it. -/
def Stmt.uses (n : String) : Stmt → Bool
  | .write _ | .defineSection _ => false
  | .emit e _ | .var _ e _ => e.uses n
  | .ifElse branches otherwise _ => branchesUse n branches || blockUses n otherwise
  | .forEach var source body _ => source.uses n || (var.name != n && bodyUses n body)

def branchesUse (n : String) : List Branch → Bool
  | [] => false
  | .mk cond body :: rest => cond.uses n || bodyUses n body || branchesUse n rest

def blockUses (n : String) : Option (List Stmt) → Bool
  | none => false
  | some body => bodyUses n body

/-- The statements use what stands for the name in the scope around them; a variable hides it after its statement. -/
def bodyUses (n : String) : List Stmt → Bool
  | [] => false
  | s :: ss => s.uses n || (!s.binds.contains n && bodyUses n ss)

end

/-! ### Expressions under two scopes -/

section
variable {ls ls' : List String}

theorem Expr.isModel_congr {e : Expr} (h : ∀ n, e.uses n = true → (n ∈ ls ↔ n ∈ ls')) : e.isModel ls = e.isModel ls' := by
  cases e with
  | name m pos =>
    have hm := h m (by simp [Expr.uses])
    simp [Expr.isModel, hm]
  | _ => rfl

theorem Picks.rescope {target : Expr} {r : Reference} {name : String} {h : Helper}
    (hp : Picks sc ls target r name h) (ha : ∀ n, target.isNamed n = true → (n ∈ ls ↔ n ∈ ls')) :
    Picks sc ls' target r name h := by
  cases hp with
  | name hl hf hb hc => exact .name (fun hmem => hl ((ha _ (by simp [Expr.isNamed])).mpr hmem)) hf hb hc
  | path hp hr hh => exact .path hp hr hh

theorem ResolvesCallee.rescope {count : Nat} {target : Expr} {callee : Ir.Callee}
    (h : ResolvesCallee sc k ls count target callee) (ha : ∀ n, target.isNamed n = true → (n ∈ ls ↔ n ∈ ls')) :
    ResolvesCallee sc k ls' count target callee := by
  cases h with
  | function hl hf hd hc => exact .function (fun hmem => hl ((ha _ (by simp [Expr.isNamed])).mpr hmem)) hf hd hc
  | builtin hl hf hb hc => exact .builtin (fun hmem => hl ((ha _ (by simp [Expr.isNamed])).mpr hmem)) hf hb hc
  | helper hp hs hc => exact .helper (hp.rescope ha) hs hc

theorem ResolvesCallee.not_mem {count : Nat} {target : Expr} {callee : Ir.Callee} {n : String}
    (h : ResolvesCallee sc k ls count target callee) (hn : target.isNamed n = true) : n ∉ ls := by
  cases target with
  | name m pos =>
    obtain rfl := beq_iff_eq.mp hn
    cases h with
    | function hl hf hd hc => exact hl
    | builtin hl hf hb hc => exact hl
    | helper hp hs hc =>
      cases hp with
      | name hl hf hb hc => exact hl
  | _ => cases hn

mutual

/-- An expression stands for the same under a scope that agrees on the names that it uses. -/
theorem Resolves.rescope {e : Expr} {e' : Ir.Expr} (h : Resolves sc k ls e e')
    (ha : ∀ n, e.uses n = true → (n ∈ ls ↔ n ∈ ls')) : Resolves sc k ls' e e' := by
  cases h with
  | literal hv => exact .literal hv
  | var hl => exact .var ((ha _ (by simp [Expr.uses])).mp hl)
  | model hl => exact .model fun hmem => hl ((ha _ (by simp [Expr.uses])).mpr hmem)
  | @member target _ _ ht hm =>
    have hmodel : target.isModel ls = target.isModel ls' := Expr.isModel_congr ha
    exact .member (Resolves.rescope ht ha) fun h => hm (hmodel.trans h)
  | call hc has =>
    refine .call (hc.rescope fun n hn => ha n (by simp [Expr.uses, hn])) ?_
    exact ResolvesAll.rescope has fun n hn => ha n (by simp [Expr.uses, hn])
  | not ho => exact .not (Resolves.rescope ho ha)
  | binary hl hr =>
    refine .binary (Resolves.rescope hl fun n hn => ha n (by simp [Expr.uses, hn])) ?_
    exact Resolves.rescope hr fun n hn => ha n (by simp [Expr.uses, hn])

theorem ResolvesAll.rescope {es : List Expr} {es' : List Ir.Expr} (h : ResolvesAll sc k ls es es')
    (ha : ∀ n, anyUses n es = true → (n ∈ ls ↔ n ∈ ls')) : ResolvesAll sc k ls' es es' := by
  cases h with
  | nil => exact .nil
  | cons he hs =>
    refine .cons (Resolves.rescope he fun n hn => ha n (by simp [anyUses, hn])) ?_
    exact ResolvesAll.rescope hs fun n hn => ha n (by simp [anyUses, hn])

end

mutual

/-- Two scopes under which an expression stands for something agree on every name that it uses, but for the name of the
model if it does not stand for the same. -/
theorem Resolves.agree {e : Expr} {e₁ e₂ : Ir.Expr} (h₁ : Resolves sc k ls e e₁) (h₂ : Resolves sc k' ls' e e₂)
    {n : String} (hn : e.uses n = true) (hmodel : n = "Model" → e₁ = e₂) : n ∈ ls ↔ n ∈ ls' := by
  cases h₁ with
  | literal hv => cases hn
  | var hl =>
    obtain rfl := beq_iff_eq.mp hn
    cases h₂ with
    | var hl' => exact iff_of_true hl hl'
    | model hl' => cases hmodel rfl
  | model hl =>
    obtain rfl := beq_iff_eq.mp hn
    cases h₂ with
    | var hl' => cases hmodel rfl
    | model hl' => exact iff_of_false hl hl'
  | member ht hm =>
    cases h₂ with
    | member ht' hm' => exact Resolves.agree ht ht' hn fun h => (Ir.Expr.member.inj (hmodel h)).1
  | call hc ha =>
    cases h₂ with
    | call hc' ha' =>
      rw [Expr.uses, Bool.or_eq_true] at hn
      rcases hn with hn | hn
      · -- A name that is called is no local.
        exact iff_of_false (hc.not_mem hn) (hc'.not_mem hn)
      · exact ResolvesAll.agree ha ha' hn fun h => (Ir.Expr.call.inj (hmodel h)).2
  | not ho =>
    cases h₂ with
    | not ho' => exact Resolves.agree ho ho' hn fun h => Ir.Expr.not.inj (hmodel h)
  | binary hl hr =>
    cases h₂ with
    | binary hl' hr' =>
      rw [Expr.uses, Bool.or_eq_true] at hn
      rcases hn with hn | hn
      · exact Resolves.agree hl hl' hn fun h => (Ir.Expr.binary.inj (hmodel h)).2.1
      · exact Resolves.agree hr hr' hn fun h => (Ir.Expr.binary.inj (hmodel h)).2.2

theorem ResolvesAll.agree {es : List Expr} {es₁ es₂ : List Ir.Expr} (h₁ : ResolvesAll sc k ls es es₁)
    (h₂ : ResolvesAll sc k' ls' es es₂) {n : String} (hn : anyUses n es = true) (hmodel : n = "Model" → es₁ = es₂) :
    n ∈ ls ↔ n ∈ ls' := by
  cases h₁ with
  | nil => cases hn
  | cons he hs =>
    cases h₂ with
    | cons he' hs' =>
      rw [anyUses, Bool.or_eq_true] at hn
      rcases hn with hn | hn
      · exact Resolves.agree he he' hn fun h => (List.cons.inj (hmodel h)).1
      · exact ResolvesAll.agree hs hs' hn fun h => (List.cons.inj (hmodel h)).2

end

end

/-! ### What statements stand for -/

mutual

inductive TranslatesStmt (sc : Scope) (k : Linkage) : List String → Stmt → Ir.Stmt → Prop
  | write {ls : List String} (text : String) : TranslatesStmt sc k ls (.write text) (.write text)
  | emit {ls : List String} {e : Expr} {e' : Ir.Expr} {pos : Option SourcePos} (he : Resolves sc k ls e e') :
      TranslatesStmt sc k ls (.emit e pos) (.emit e' pos)
  | var {ls : List String} {n : Named} {e : Expr} {e' : Ir.Expr} {pos : Option SourcePos}
      (he : Resolves sc k ls e e') : TranslatesStmt sc k ls (.var n e pos) (.bind n.name e' pos)
  | ifElse {ls : List String} {branches : List Branch} {bs : List Ir.Branch} {otherwise : Option (List Stmt)}
      {body : Option (List Ir.Stmt)} {pos : Option SourcePos} (hb : TranslatesBranches sc k ls branches bs)
      (ho : TranslatesBlock sc k ls otherwise body) :
      TranslatesStmt sc k ls (.ifElse branches otherwise pos) (.ifElse bs body pos)
  | forEach {ls : List String} {n : Named} {e : Expr} {e' : Ir.Expr} {body : List Stmt} {ss : List Ir.Stmt}
      {pos : Option SourcePos} (he : Resolves sc k ls e e') (hb : Translates sc k (n.name :: ls) body ss) :
      TranslatesStmt sc k ls (.forEach n e body pos) (.forEach n.name e' ss pos)
  /-- A section is registered by its index, whatever the scope. -/
  | register {ls : List String} {n : Named} {index : Nat}
      (hf : sc.sections.findIdx? (·.name.name == n.name) = some index) :
      TranslatesStmt sc k ls (.defineSection n) (.defineSection index)

inductive TranslatesBranches (sc : Scope) (k : Linkage) : List String → List Branch → List Ir.Branch → Prop
  | nil {ls : List String} : TranslatesBranches sc k ls [] []
  | cons {ls : List String} {cond : Expr} {cond' : Ir.Expr} {body : List Stmt} {ss : List Ir.Stmt}
      {branches : List Branch} {bs : List Ir.Branch} (hc : Resolves sc k ls cond cond')
      (hb : Translates sc k ls body ss) (hs : TranslatesBranches sc k ls branches bs) :
      TranslatesBranches sc k ls (.mk cond body :: branches) (.mk cond' ss :: bs)

inductive TranslatesBlock (sc : Scope) (k : Linkage) : List String → Option (List Stmt) → Option (List Ir.Stmt) → Prop
  | none {ls : List String} : TranslatesBlock sc k ls none none
  | some {ls : List String} {body : List Stmt} {ss : List Ir.Stmt} (hb : Translates sc k ls body ss) :
      TranslatesBlock sc k ls (some body) (some ss)

/-- What statements stand for, in the order in which they are executed. -/
inductive Translates (sc : Scope) (k : Linkage) : List String → List Stmt → List Ir.Stmt → Prop
  | nil {ls : List String} : Translates sc k ls [] []
  | cons {ls : List String} {s : Stmt} {ss : List Stmt} {s' : Ir.Stmt} {ss' : List Ir.Stmt}
      (hs : TranslatesStmt sc k ls s s') (hr : Translates sc k (s.binds ++ ls) ss ss') :
      Translates sc k ls (s :: ss) (s' :: ss')

end

/-! ### A change of linkage -/

mutual

theorem TranslatesStmt.mono (hk : k.Le sc k') {ls : List String} {s : Stmt} {s' : Ir.Stmt}
    (h : TranslatesStmt sc k ls s s') : TranslatesStmt sc k' ls s s' := by
  cases h with
  | write text => exact .write text
  | emit he => exact .emit (he.mono hk)
  | var he => exact .var (he.mono hk)
  | ifElse hb ho => exact .ifElse (TranslatesBranches.mono hk hb) (TranslatesBlock.mono hk ho)
  | forEach he hb => exact .forEach (he.mono hk) (Translates.mono hk hb)
  | register hf => exact .register hf

theorem TranslatesBranches.mono (hk : k.Le sc k') {ls : List String} {branches : List Branch} {bs : List Ir.Branch}
    (h : TranslatesBranches sc k ls branches bs) : TranslatesBranches sc k' ls branches bs := by
  cases h with
  | nil => exact .nil
  | cons hc hb hs => exact .cons (hc.mono hk) (Translates.mono hk hb) (TranslatesBranches.mono hk hs)

theorem TranslatesBlock.mono (hk : k.Le sc k') {ls : List String} {otherwise : Option (List Stmt)}
    {body : Option (List Ir.Stmt)} (h : TranslatesBlock sc k ls otherwise body) :
    TranslatesBlock sc k' ls otherwise body := by
  cases h with
  | none => exact .none
  | some hb => exact .some (Translates.mono hk hb)

theorem Translates.mono (hk : k.Le sc k') {ls : List String} {ss : List Stmt} {ss' : List Ir.Stmt}
    (h : Translates sc k ls ss ss') : Translates sc k' ls ss ss' := by
  cases h with
  | nil => exact .nil
  | cons hs hr => exact .cons (TranslatesStmt.mono hk hs) (Translates.mono hk hr)

end

mutual

theorem TranslatesStmt.reread {ls : List String} {s : Stmt} {s' s'' : Ir.Stmt}
    (h : TranslatesStmt sc (.written helpers) ls s s') (hr : s'.reread? = some s'') :
    TranslatesStmt sc (.loaded helpers) ls s s'' := by
  cases h with
  | write text =>
    cases hr
    exact .write text
  | emit he =>
    obtain ⟨e'', he'', rfl⟩ := Ir.Stmt.reread?_emit_eq_some hr
    exact .emit (he.reread he'')
  | var he =>
    obtain ⟨e'', he'', rfl⟩ := Ir.Stmt.reread?_bind_eq_some hr
    exact .var (he.reread he'')
  | ifElse hb ho =>
    obtain ⟨bs, body, hbs, hbody, rfl⟩ := Ir.Stmt.reread?_ifElse_eq_some hr
    exact .ifElse (TranslatesBranches.reread hb hbs) (TranslatesBlock.reread ho hbody)
  | forEach he hb =>
    obtain ⟨e'', ss, he'', hss, rfl⟩ := Ir.Stmt.reread?_forEach_eq_some hr
    exact .forEach (he.reread he'') (Translates.reread hb hss)
  | register hf =>
    obtain ⟨-, rfl⟩ := Ir.Stmt.reread?_defineSection_eq_some hr
    exact .register hf

theorem TranslatesBranches.reread {ls : List String} {branches : List Branch} {bs bs' : List Ir.Branch}
    (h : TranslatesBranches sc (.written helpers) ls branches bs) (hr : Ir.rereadBranches? bs = some bs') :
    TranslatesBranches sc (.loaded helpers) ls branches bs' := by
  cases h with
  | nil =>
    cases hr
    exact .nil
  | cons hc hb hs =>
    obtain ⟨cond, ss, bs', hcond, hss, hbs', rfl⟩ := Ir.rereadBranches?_cons_eq_some hr
    exact .cons (hc.reread hcond) (Translates.reread hb hss) (TranslatesBranches.reread hs hbs')

theorem TranslatesBlock.reread {ls : List String} {otherwise : Option (List Stmt)}
    {body body' : Option (List Ir.Stmt)} (h : TranslatesBlock sc (.written helpers) ls otherwise body)
    (hr : Ir.rereadBlock? body = some body') : TranslatesBlock sc (.loaded helpers) ls otherwise body' := by
  cases h with
  | none =>
    cases hr
    exact .none
  | some hb =>
    obtain ⟨ss, hss, rfl⟩ := Ir.rereadBlock?_some_eq_some hr
    exact .some (Translates.reread hb hss)

theorem Translates.reread {ls : List String} {ss : List Stmt} {ss' ss'' : List Ir.Stmt}
    (h : Translates sc (.written helpers) ls ss ss') (hr : Ir.rereadStmts? ss' = some ss'') :
    Translates sc (.loaded helpers) ls ss ss'' := by
  cases h with
  | nil =>
    cases hr
    exact .nil
  | cons hs hrest =>
    obtain ⟨s'', ss'', hs'', hss'', rfl⟩ := Ir.rereadStmts?_cons_eq_some hr
    exact .cons (TranslatesStmt.reread hs hs'') (Translates.reread hrest hss'')

end

/-! ### Statements under two scopes -/

mutual

theorem TranslatesStmt.rescope {ls ls' : List String} {s : Stmt} {s' : Ir.Stmt} (h : TranslatesStmt sc k ls s s')
    (ha : ∀ n, s.uses n = true → (n ∈ ls ↔ n ∈ ls')) : TranslatesStmt sc k ls' s s' := by
  cases h with
  | write text => exact .write text
  | emit he => exact .emit (he.rescope ha)
  | var he => exact .var (he.rescope ha)
  | ifElse hb ho =>
    refine .ifElse (TranslatesBranches.rescope hb fun n hn => ha n (by simp [Stmt.uses, hn])) ?_
    exact TranslatesBlock.rescope ho fun n hn => ha n (by simp [Stmt.uses, hn])
  | @forEach _ var _ _ _ _ _ he hb =>
    refine .forEach (he.rescope fun n hn => ha n (by simp [Stmt.uses, hn])) (Translates.rescope hb fun n hn => ?_)
    by_cases hvar : var.name = n
    · simp [hvar]
    · simp [Ne.symm hvar, ha n (by simp [Stmt.uses, hn, hvar])]
  | register hf => exact .register hf

theorem TranslatesBranches.rescope {ls ls' : List String} {branches : List Branch} {bs : List Ir.Branch}
    (h : TranslatesBranches sc k ls branches bs) (ha : ∀ n, branchesUse n branches = true → (n ∈ ls ↔ n ∈ ls')) :
    TranslatesBranches sc k ls' branches bs := by
  cases h with
  | nil => exact .nil
  | cons hc hb hs =>
    refine .cons (hc.rescope fun n hn => ha n (by simp [branchesUse, hn])) ?_ ?_
    · exact Translates.rescope hb fun n hn => ha n (by simp [branchesUse, hn])
    · exact TranslatesBranches.rescope hs fun n hn => ha n (by simp [branchesUse, hn])

theorem TranslatesBlock.rescope {ls ls' : List String} {otherwise : Option (List Stmt)} {body : Option (List Ir.Stmt)}
    (h : TranslatesBlock sc k ls otherwise body) (ha : ∀ n, blockUses n otherwise = true → (n ∈ ls ↔ n ∈ ls')) :
    TranslatesBlock sc k ls' otherwise body := by
  cases h with
  | none => exact .none
  | some hb => exact .some (Translates.rescope hb ha)

/-- Statements stand for the same under a scope that agrees on the names that they use. -/
theorem Translates.rescope {ls ls' : List String} {ss : List Stmt} {ss' : List Ir.Stmt}
    (h : Translates sc k ls ss ss') (ha : ∀ n, bodyUses n ss = true → (n ∈ ls ↔ n ∈ ls')) :
    Translates sc k ls' ss ss' := by
  cases h with
  | nil => exact .nil
  | @cons _ s _ _ _ hs hr =>
    refine .cons (TranslatesStmt.rescope hs fun n hn => ha n (by simp [bodyUses, hn])) ?_
    refine Translates.rescope hr fun n hn => ?_
    by_cases hbound : n ∈ s.binds
    · simp [hbound]
    · simp [hbound, ha n (by simp [bodyUses, hn, hbound])]

end

mutual

theorem TranslatesStmt.agree {ls ls' : List String} {s : Stmt} {s₁ s₂ : Ir.Stmt} (h₁ : TranslatesStmt sc k ls s s₁)
    (h₂ : TranslatesStmt sc k' ls' s s₂) {n : String} (hn : s.uses n = true) (hmodel : n = "Model" → s₁ = s₂) :
    n ∈ ls ↔ n ∈ ls' := by
  cases h₁ with
  | write text => cases hn
  | emit he =>
    cases h₂ with
    | emit he' => exact he.agree he' hn fun h => (Ir.Stmt.emit.inj (hmodel h)).1
  | var he =>
    cases h₂ with
    | var he' => exact he.agree he' hn fun h => (Ir.Stmt.bind.inj (hmodel h)).2.1
  | ifElse hb ho =>
    cases h₂ with
    | ifElse hb' ho' =>
      rw [Stmt.uses, Bool.or_eq_true] at hn
      rcases hn with hn | hn
      · exact TranslatesBranches.agree hb hb' hn fun h => (Ir.Stmt.ifElse.inj (hmodel h)).1
      · exact TranslatesBlock.agree ho ho' hn fun h => (Ir.Stmt.ifElse.inj (hmodel h)).2.1
  | forEach he hb =>
    cases h₂ with
    | forEach he' hb' =>
      rw [Stmt.uses, Bool.or_eq_true, Bool.and_eq_true, bne_iff_ne] at hn
      rcases hn with hn | ⟨hvar, hn⟩
      · exact he.agree he' hn fun h => (Ir.Stmt.forEach.inj (hmodel h)).2.1
      · have := Translates.agree hb hb' hn fun h => (Ir.Stmt.forEach.inj (hmodel h)).2.2.1
        simpa [Ne.symm hvar] using this
  | register hf => cases hn

theorem TranslatesBranches.agree {ls ls' : List String} {branches : List Branch} {bs₁ bs₂ : List Ir.Branch}
    (h₁ : TranslatesBranches sc k ls branches bs₁) (h₂ : TranslatesBranches sc k' ls' branches bs₂) {n : String}
    (hn : branchesUse n branches = true) (hmodel : n = "Model" → bs₁ = bs₂) : n ∈ ls ↔ n ∈ ls' := by
  cases h₁ with
  | nil => cases hn
  | cons hc hb hs =>
    cases h₂ with
    | cons hc' hb' hs' =>
      rw [branchesUse, Bool.or_eq_true, Bool.or_eq_true] at hn
      rcases hn with (hn | hn) | hn
      · exact hc.agree hc' hn fun h => (Ir.Branch.mk.inj (List.cons.inj (hmodel h)).1).1
      · exact Translates.agree hb hb' hn fun h => (Ir.Branch.mk.inj (List.cons.inj (hmodel h)).1).2
      · exact TranslatesBranches.agree hs hs' hn fun h => (List.cons.inj (hmodel h)).2

theorem TranslatesBlock.agree {ls ls' : List String} {otherwise : Option (List Stmt)} {b₁ b₂ : Option (List Ir.Stmt)}
    (h₁ : TranslatesBlock sc k ls otherwise b₁) (h₂ : TranslatesBlock sc k' ls' otherwise b₂) {n : String}
    (hn : blockUses n otherwise = true) (hmodel : n = "Model" → b₁ = b₂) : n ∈ ls ↔ n ∈ ls' := by
  cases h₁ with
  | none => cases hn
  | some hb =>
    cases h₂ with
    | some hb' => exact Translates.agree hb hb' hn fun h => Option.some.inj (hmodel h)

/-- Two scopes under which statements stand for something agree on every name that they use, but for the name of the
model if they do not stand for the same. -/
theorem Translates.agree {ls ls' : List String} {ss : List Stmt} {ss₁ ss₂ : List Ir.Stmt}
    (h₁ : Translates sc k ls ss ss₁) (h₂ : Translates sc k' ls' ss ss₂) {n : String} (hn : bodyUses n ss = true)
    (hmodel : n = "Model" → ss₁ = ss₂) : n ∈ ls ↔ n ∈ ls' := by
  cases h₁ with
  | nil => cases hn
  | @cons _ s _ _ _ hs hr =>
    cases h₂ with
    | cons hs' hr' =>
      rw [bodyUses, Bool.or_eq_true, Bool.and_eq_true] at hn
      rcases hn with hn | ⟨hbound, hn⟩
      · exact TranslatesStmt.agree hs hs' hn fun h => (List.cons.inj (hmodel h)).1
      · have hfree : n ∉ s.binds := by simpa using hbound
        have := Translates.agree hr hr' hn fun h => (List.cons.inj (hmodel h)).2
        simpa [hfree] using this

end

end Stencil.Unit
