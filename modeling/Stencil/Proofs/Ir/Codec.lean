import Stencil.Ir.Codec
import Stencil.Proofs.Json.Nesting
import Stencil.Proofs.Lookup

/-! Reading back the binary of a module.

A binary is read as the module it was written from, with the values of its literals as they come back from
their texts. Nothing is read if the binary nests too deep, or if an index, a place or a number in it is out of
the reader's range. -/

namespace Stencil

/-! ### Conditions on what is read -/

theorem bind_ite_none {p : Prop} [Decidable p] (x : Option α) (f : α → Option β) :
    (if p then x else none).bind f = if p then x.bind f else none := by
  split <;> rfl

theorem bind_fun_ite_none {p : Prop} [Decidable p] (x : Option α) (f : α → Option β) :
    (x.bind fun a => if p then f a else none) = if p then x.bind f else none := by
  split
  · rfl
  · exact Option.bind_fun_none x

theorem ite_ite_none {p q : Prop} [Decidable p] [Decidable q] (x : Option α) :
    (if p then if q then x else none else none) = if p ∧ q then x else none := by
  by_cases hp : p <;> by_cases hq : q <;> simp [hp, hq]

namespace Json

/-! ### Variants and records -/

theorem variant?_variant_zero (name : String) (content : Json) :
    Draft.variant? ((variant name content).draft 0) = none := rfl

theorem variant?_variant (name : String) (content : Json) (room : Nat) :
    Draft.variant? ((variant name content).draft (room + 1)) = some (name, some (content.draft room)) := rfl

theorem variant?_string (name : String) (room : Nat) :
    Draft.variant? ((string name).draft room) = some (name, none) := rfl

theorem fields?_object_zero (names : List String) (members : List (String × Json)) :
    Draft.fields? names ((object members).draft 0) = none := rfl

/-- A record with the fields that a reader asks for gives them all. -/
theorem fields?_object {names : List String} {members : List (String × Json)} (hn : names = members.map (·.1))
    (h : names.Nodup) (room : Nat) :
    Draft.fields? names ((object members).draft (room + 1)) =
      some (members.map fun m => some (m.2.draft room)) := by
  subst hn
  have hmap : (members.map fun m => (m.1, m.2.draft room)).map (·.1) = members.map (·.1) := by
    rw [List.map_map]
    rfl
  have hcount : (members.map (·.1)).all
      (fun n => (members.map fun m => (m.1, m.2.draft room)).countP (·.1 == n) ≤ 1) = true := by
    rw [List.all_eq_true]
    intro n _
    rw [decide_eq_true_iff]
    have hle := List.nodup_iff_count_le_one.mp h n
    rw [← hmap, List.count, List.countP_map] at hle
    exact hle
  simp only [draft, draftMembers_eq_map, Draft.fields?]
  rw [if_pos hcount, List.map_map]
  refine congrArg some (List.map_congr_left fun m hm => ?_)
  have hmem : (m.1, m.2.draft room) ∈ members.map fun m => (m.1, m.2.draft room) := List.mem_map_of_mem hm
  exact congrArg (Option.map (·.2)) (find?_of_nodup (hmap ▸ h) hmem)

theorem asString?_draft (s : String) (room : Nat) : Draft.asString? ((string s).draft room) = some s := rfl

theorem nesting_ofNat (n : Nat) : (ofNat n).nesting = 0 := rfl

theorem asBool?_draft (b : Bool) (room : Nat) : Draft.asBool? ((bool b).draft room) = some b := rfl

/-- A list whose items come back, comes back. -/
theorem asList?_draft {α β : Type} {write : α → Json} {read : Draft → Option β} {back : α → Option β}
    {xs : List α} {bound : Nat}
    (h : ∀ a ∈ xs, ∀ room < bound,
      read ((write a).draft room) = if (write a).nesting ≤ room then back a else none) :
    ∀ room ≤ bound, Draft.asList? read ((array (xs.map write)).draft room) =
      if (array (xs.map write)).nesting ≤ room then xs.mapM back else none := by
  rintro (_ | room) hroom
  · simp [draft, Draft.asList?, nesting]
  simp only [draft, Draft.asList?, nesting, Nat.add_le_add_iff_right, draftItems_eq_map]
  induction xs with
  | nil => simp [nestingItems]
  | cons x xs ih =>
    have hx := h x (by simp) room (by omega)
    have hxs := ih fun a ha => h a (by simp [ha])
    simp only [List.map_cons, List.mapM_cons, hx, hxs, nestingItems, Nat.max_le]
    by_cases h1 : (write x).nesting ≤ room <;> by_cases h2 : nestingItems (xs.map write) ≤ room <;> simp [h1, h2]

theorem nestingItems_strings (ss : List String) : nestingItems (ss.map string) = 0 := by
  induction ss with
  | nil => rfl
  | cons s ss ih => simp [nestingItems, nesting, ih]

/-- A list of texts comes back where there is room for a list. -/
theorem asList?_strings (ss : List String) {bound : Nat} (room : Nat) (h : room ≤ bound) :
    Draft.asList? Draft.asString? ((array (ss.map string)).draft room) = if 1 ≤ room then some ss else none := by
  have hitem : ∀ s ∈ ss, ∀ room < bound, Draft.asString? ((string s).draft room) =
      if (string s).nesting ≤ room then some s else none := by
    intro s _ room _
    simp [nesting, asString?_draft]
  have hall : ss.mapM some = some (ss.map id) := List.mapM_pure
  rw [asList?_draft hitem room h, nesting, nestingItems_strings, hall, List.map_id]

end Json

namespace Ir

open Json (Draft ofOption variant)
open Json.Draft (fields? variant? isUnit asString? asBool? asCount? asList? optional?)

/-! ### What comes back -/

/-- What comes back from the record of a place. -/
def rereadPos? (p : SourcePos) : Option SourcePos :=
  if p.line < countLimit ∧ p.column < countLimit then some p else none

/-- What comes back from a place that may be missing. -/
def rereadPlace? : Option SourcePos → Option (Option SourcePos)
  | none => some none
  | some p => (rereadPos? p).map some

/-- What comes back from a callee. -/
def Callee.reread? : Callee → Option Callee
  | builtin b => some (builtin b)
  | function index => if index < countLimit then some (function index) else none
  | helper slot => if slot < countLimit then some (helper slot) else none

mutual

/-- What comes back from an expression. -/
def Expr.reread? : Expr → Option Expr
  | .literal v => v.reread?.map fun v => .literal v.canonical
  | .model => some .model
  | .var name => some (.var name)
  | .member target name => target.reread?.map (.member · name)
  | .call callee args => do return .call (← callee.reread?) (← rereadExprs? args)
  | .not operand => operand.reread?.map .not
  | .binary op lhs rhs => do return .binary op (← lhs.reread?) (← rhs.reread?)

/-- What comes back from expressions. -/
def rereadExprs? : List Expr → Option (List Expr)
  | [] => some []
  | e :: es => do return (← e.reread?) :: (← rereadExprs? es)

end

mutual

/-- What comes back from a statement. -/
def Stmt.reread? : Stmt → Option Stmt
  | .write text => some (.write text)
  | .emit expr pos => do return .emit (← expr.reread?) (← rereadPlace? pos)
  | .bind name expr pos => do return .bind name (← expr.reread?) (← rereadPlace? pos)
  | .ifElse branches otherwise pos => do
    return .ifElse (← rereadBranches? branches) (← rereadBlock? otherwise) (← rereadPlace? pos)
  | .forEach var source body pos => do
    return .forEach var (← source.reread?) (← rereadStmts? body) (← rereadPlace? pos)
  | .defineSection index => if index < countLimit then some (.defineSection index) else none

/-- What comes back from a branch. -/
def Branch.reread? : Branch → Option Branch
  | .mk cond body => do return .mk (← cond.reread?) (← rereadStmts? body)

/-- What comes back from branches. -/
def rereadBranches? : List Branch → Option (List Branch)
  | [] => some []
  | b :: bs => do return (← b.reread?) :: (← rereadBranches? bs)

/-- What comes back from a block that may be missing. -/
def rereadBlock? : Option (List Stmt) → Option (Option (List Stmt))
  | none => some none
  | some body => (rereadStmts? body).map some

/-- What comes back from statements. -/
def rereadStmts? : List Stmt → Option (List Stmt)
  | [] => some []
  | s :: ss => do return (← s.reread?) :: (← rereadStmts? ss)

end

/-- What comes back from a function. -/
def Function.reread? (f : Function) : Option Function := do
  return ⟨f.name, f.params, ← f.body.reread?, ← rereadPlace? f.pos⟩

/-- What comes back from a section. -/
def Section.reread? (s : Section) : Option Section := do return ⟨s.name, ← rereadStmts? s.body⟩

/-- What comes back from a module. -/
def Module.reread? (m : Module) : Option Module := do
  if m.format < formatLimit then
    return { m with
      functions := ← m.functions.mapM Function.reread?
      sections := ← m.sections.mapM Section.reread?
      body := ← rereadStmts? m.body }
  else none

/-! ### The shape of what comes back

Only the values of literals change: what comes back from a node is the same node over what comes back from its
parts. -/

/-- A place comes back unchanged. -/
theorem eq_of_rereadPlace? {pos pos' : Option SourcePos} (h : rereadPlace? pos = some pos') : pos' = pos := by
  cases pos with
  | none => exact (Option.some.inj h).symm
  | some p =>
    obtain ⟨q, hq, rfl⟩ := Option.map_eq_some_iff.mp h
    unfold rereadPos? at hq
    split at hq
    · exact congrArg some (Option.some.inj hq).symm
    · cases hq

/-- A callee comes back unchanged. -/
theorem Callee.eq_of_reread? {callee callee' : Callee} (h : callee.reread? = some callee') : callee' = callee := by
  cases callee with
  | builtin b => exact (Option.some.inj h).symm
  | function index | helper slot =>
    rw [reread?] at h
    split at h
    · exact (Option.some.inj h).symm
    · cases h

section
variable {r : Expr}

theorem Expr.reread?_literal_eq_some {v : Json} (h : (literal v).reread? = some r) :
    ∃ u, v.reread? = some u ∧ r = literal u.canonical := by
  obtain ⟨u, hu, rfl⟩ := Option.map_eq_some_iff.mp h
  exact ⟨u, hu, rfl⟩

theorem Expr.reread?_member_eq_some {target : Expr} {name : String} (h : (member target name).reread? = some r) :
    ∃ t, target.reread? = some t ∧ r = member t name := by
  obtain ⟨t, ht, rfl⟩ := Option.map_eq_some_iff.mp h
  exact ⟨t, ht, rfl⟩

theorem Expr.reread?_call_eq_some {callee : Callee} {args : List Expr} (h : (call callee args).reread? = some r) :
    ∃ as, rereadExprs? args = some as ∧ r = call callee as := by
  rw [reread?] at h
  simp only [Option.bind_eq_bind, Option.bind_eq_some_iff, Option.pure_def, Option.some.injEq] at h
  obtain ⟨callee', hcallee, as, has, rfl⟩ := h
  obtain rfl := Callee.eq_of_reread? hcallee
  exact ⟨as, has, rfl⟩

theorem Expr.reread?_not_eq_some {operand : Expr} (h : operand.not.reread? = some r) :
    ∃ o, operand.reread? = some o ∧ r = o.not := by
  obtain ⟨o, ho, rfl⟩ := Option.map_eq_some_iff.mp h
  exact ⟨o, ho, rfl⟩

theorem Expr.reread?_binary_eq_some {op : BinaryOp} {lhs rhs : Expr} (h : (binary op lhs rhs).reread? = some r) :
    ∃ a b, lhs.reread? = some a ∧ rhs.reread? = some b ∧ r = binary op a b := by
  rw [reread?] at h
  simp only [Option.bind_eq_bind, Option.bind_eq_some_iff, Option.pure_def, Option.some.injEq] at h
  obtain ⟨a, ha, b, hb, rfl⟩ := h
  exact ⟨a, b, ha, hb, rfl⟩

theorem rereadExprs?_cons_eq_some {e : Expr} {es rs : List Expr} (h : rereadExprs? (e :: es) = some rs) :
    ∃ e' es', e.reread? = some e' ∧ rereadExprs? es = some es' ∧ rs = e' :: es' := by
  rw [rereadExprs?] at h
  simp only [Option.bind_eq_bind, Option.bind_eq_some_iff, Option.pure_def, Option.some.injEq] at h
  obtain ⟨e', he, es', hes, rfl⟩ := h
  exact ⟨e', es', he, hes, rfl⟩

end

section
variable {pos : Option SourcePos} {r : Stmt}

theorem Stmt.reread?_emit_eq_some {expr : Expr} (h : (emit expr pos).reread? = some r) :
    ∃ e, expr.reread? = some e ∧ r = emit e pos := by
  rw [reread?] at h
  simp only [Option.bind_eq_bind, Option.bind_eq_some_iff, Option.pure_def, Option.some.injEq] at h
  obtain ⟨e, he, pos', hpos, rfl⟩ := h
  obtain rfl := eq_of_rereadPlace? hpos
  exact ⟨e, he, rfl⟩

theorem Stmt.reread?_bind_eq_some {name : String} {expr : Expr} (h : (Stmt.bind name expr pos).reread? = some r) :
    ∃ e, expr.reread? = some e ∧ r = Stmt.bind name e pos := by
  rw [reread?] at h
  simp only [Option.bind_eq_bind, Option.bind_eq_some_iff, Option.pure_def, Option.some.injEq] at h
  obtain ⟨e, he, pos', hpos, rfl⟩ := h
  obtain rfl := eq_of_rereadPlace? hpos
  exact ⟨e, he, rfl⟩

theorem Stmt.reread?_ifElse_eq_some {branches : List Branch} {otherwise : Option (List Stmt)}
    (h : (ifElse branches otherwise pos).reread? = some r) :
    ∃ bs body, rereadBranches? branches = some bs ∧ rereadBlock? otherwise = some body ∧
      r = ifElse bs body pos := by
  rw [reread?] at h
  simp only [Option.bind_eq_bind, Option.bind_eq_some_iff, Option.pure_def, Option.some.injEq] at h
  obtain ⟨bs, hbs, body, hbody, pos', hpos, rfl⟩ := h
  obtain rfl := eq_of_rereadPlace? hpos
  exact ⟨bs, body, hbs, hbody, rfl⟩

theorem Stmt.reread?_forEach_eq_some {var : String} {source : Expr} {body : List Stmt}
    (h : (forEach var source body pos).reread? = some r) :
    ∃ e ss, source.reread? = some e ∧ rereadStmts? body = some ss ∧ r = forEach var e ss pos := by
  rw [reread?] at h
  simp only [Option.bind_eq_bind, Option.bind_eq_some_iff, Option.pure_def, Option.some.injEq] at h
  obtain ⟨e, he, ss, hss, pos', hpos, rfl⟩ := h
  obtain rfl := eq_of_rereadPlace? hpos
  exact ⟨e, ss, he, hss, rfl⟩

theorem Stmt.reread?_defineSection_eq_some {index : Nat} (h : (defineSection index).reread? = some r) :
    index < countLimit ∧ r = defineSection index := by
  rw [reread?] at h
  split at h
  · rename_i hindex
    exact ⟨hindex, (Option.some.inj h).symm⟩
  · cases h

theorem rereadStmts?_cons_eq_some {s : Stmt} {ss rs : List Stmt} (h : rereadStmts? (s :: ss) = some rs) :
    ∃ s' ss', s.reread? = some s' ∧ rereadStmts? ss = some ss' ∧ rs = s' :: ss' := by
  rw [rereadStmts?] at h
  simp only [Option.bind_eq_bind, Option.bind_eq_some_iff, Option.pure_def, Option.some.injEq] at h
  obtain ⟨s', hs, ss', hss, rfl⟩ := h
  exact ⟨s', ss', hs, hss, rfl⟩

theorem rereadBlock?_some_eq_some {body : List Stmt} {rs : Option (List Stmt)} (h : rereadBlock? (some body) = some rs) :
    ∃ ss, rereadStmts? body = some ss ∧ rs = some ss := by
  obtain ⟨ss, hss, rfl⟩ := Option.map_eq_some_iff.mp h
  exact ⟨ss, hss, rfl⟩

theorem rereadBranches?_cons_eq_some {cond : Expr} {body : List Stmt} {bs rs : List Branch}
    (h : rereadBranches? (.mk cond body :: bs) = some rs) :
    ∃ c ss bs', cond.reread? = some c ∧ rereadStmts? body = some ss ∧ rereadBranches? bs = some bs' ∧
      rs = .mk c ss :: bs' := by
  rw [rereadBranches?, Branch.reread?] at h
  simp only [Option.bind_eq_bind, Option.bind_eq_some_iff, Option.pure_def, Option.some.injEq] at h
  obtain ⟨_, ⟨c, hc, ss, hss, rfl⟩, bs', hbs, rfl⟩ := h
  exact ⟨c, ss, bs', hc, hss, hbs, rfl⟩

end

theorem Function.reread?_eq_some {f r : Function} (h : f.reread? = some r) :
    ∃ e, f.body.reread? = some e ∧ r = { f with body := e } := by
  unfold reread? at h
  simp only [Option.bind_eq_bind, Option.bind_eq_some_iff, Option.pure_def, Option.some.injEq] at h
  obtain ⟨e, he, pos', hpos, rfl⟩ := h
  obtain rfl := eq_of_rereadPlace? hpos
  exact ⟨e, he, rfl⟩

theorem Section.reread?_eq_some {s r : Section} (h : s.reread? = some r) :
    ∃ ss, rereadStmts? s.body = some ss ∧ r = { s with body := ss } := by
  rw [reread?] at h
  simp only [Option.bind_eq_bind, Option.bind_eq_some_iff, Option.pure_def, Option.some.injEq] at h
  obtain ⟨ss, hss, rfl⟩ := h
  exact ⟨ss, hss, rfl⟩

theorem Module.reread?_eq_some {m r : Module} (h : m.reread? = some r) :
    ∃ fs ss body, m.format < formatLimit ∧ m.functions.mapM Function.reread? = some fs ∧
      m.sections.mapM Section.reread? = some ss ∧ rereadStmts? m.body = some body ∧
      r = { m with functions := fs, sections := ss, body } := by
  unfold reread? at h
  split at h
  · rename_i hformat
    simp only [Option.bind_eq_bind, Option.bind_eq_some_iff, Option.pure_def, Option.some.injEq] at h
    obtain ⟨fs, hfs, ss, hss, body, hbody, rfl⟩ := h
    exact ⟨fs, ss, body, hformat, hfs, hss, hbody, rfl⟩
  · cases h

/-! ### Lists -/

theorem exprsJson_eq_map (es : List Expr) : exprsJson es = es.map Expr.toJson := by
  induction es with
  | nil => rfl
  | cons e es ih => rw [exprsJson, ih, List.map_cons]

theorem rereadExprs?_eq_mapM (es : List Expr) : rereadExprs? es = es.mapM Expr.reread? := by
  induction es with
  | nil => rfl
  | cons e es ih => rw [rereadExprs?, ih, List.mapM_cons]

theorem stmtsJson_eq_map (ss : List Stmt) : stmtsJson ss = ss.map Stmt.toJson := by
  induction ss with
  | nil => rfl
  | cons s ss ih => rw [stmtsJson, ih, List.map_cons]

theorem rereadStmts?_eq_mapM (ss : List Stmt) : rereadStmts? ss = ss.mapM Stmt.reread? := by
  induction ss with
  | nil => rfl
  | cons s ss ih => rw [rereadStmts?, ih, List.mapM_cons]

theorem rereadBranches?_eq_mapM (bs : List Branch) : rereadBranches? bs = bs.mapM Branch.reread? := by
  induction bs with
  | nil => rfl
  | cons b bs ih => rw [rereadBranches?, ih, List.mapM_cons]

/-! ### Parts -/

theorem posOfDraft?_posJson (p : SourcePos) (room : Nat) :
    posOfDraft? ((posJson p).draft room) = if (posJson p).nesting ≤ room then rereadPos? p else none := by
  rcases room with _ | room
  · simp [posOfDraft?, posJson, Json.fields?_object_zero, Json.nesting]
  have hc : ∀ n, asCount? countLimit ((Json.ofNat n).draft room) = if n < countLimit then some n else none :=
    fun n => Json.asCount?_draft (le_refl _) n room
  have hn : (posJson p).nesting ≤ room + 1 := by simp [posJson, Json.nesting, Json.nestingMembers, Json.ofNat]
  rw [if_pos hn, posOfDraft?, posJson]
  simp (disch := first | simp only [List.map_cons, List.map_nil] | decide) only [Json.fields?_object,
    List.map_cons, List.map_nil, Option.bind_eq_bind, Option.bind_some, hc, rereadPos?]
  by_cases hl : p.line < countLimit <;> by_cases hcol : p.column < countLimit <;> simp [hl, hcol]

theorem optional?_posJson? (pos : Option SourcePos) (room : Nat) :
    optional? posOfDraft? (some ((posJson? pos).draft room)) =
      if (posJson? pos).nesting ≤ room then rereadPlace? pos else none := by
  cases pos with
  | none => simp [posJson?, ofOption, Json.draft, optional?, Json.nesting, rereadPlace?]
  | some p =>
    have h : optional? posOfDraft? (some ((posJson p).draft room)) = (posOfDraft? ((posJson p).draft room)).map some := by
      cases room <;> rfl
    simp only [posJson?, ofOption, h, posOfDraft?_posJson, rereadPlace?]
    by_cases hn : (posJson p).nesting ≤ room <;> simp [hn]

theorem BinaryOp.ofDraft?_name (op : BinaryOp) (room : Nat) :
    BinaryOp.ofDraft? ((Json.string op.name).draft room) = some op := by
  cases op <;> rfl

theorem Builtin.ofDraft?_name (b : Builtin) (room : Nat) :
    Builtin.ofDraft? ((Json.string b.name).draft room) = some b := by
  cases b <;> rfl

theorem Callee.ofDraft?_toJson (c : Callee) (room : Nat) :
    Callee.ofDraft? (c.toJson.draft room) = if c.toJson.nesting ≤ room then c.reread? else none := by
  have hn : c.toJson.nesting = 1 := by
    cases c <;> simp [Callee.toJson, Json.nesting_variant, Json.nesting, Json.ofNat]
  have hc : ∀ n room, asCount? countLimit ((Json.ofNat n).draft room) = if n < countLimit then some n else none :=
    fun n room => Json.asCount?_draft (le_refl _) n room
  rw [hn]
  rcases room with _ | room
  · cases c <;> rfl
  rw [if_pos (by omega)]
  cases c with
  | builtin b =>
    simp only [Callee.ofDraft?, Callee.toJson, Json.variant?_variant, Option.bind_eq_bind, Option.bind_some,
      Builtin.ofDraft?_name]
    rfl
  | function index =>
    simp only [Callee.ofDraft?, Callee.toJson, Json.variant?_variant, Option.bind_eq_bind, Option.bind_some, hc,
      Callee.reread?]
    split <;> rfl
  | helper slot =>
    simp only [Callee.ofDraft?, Callee.toJson, Json.variant?_variant, Option.bind_eq_bind, Option.bind_some, hc,
      Callee.reread?]
    split <;> rfl

/-! ### Expressions -/

-- The equations of the readers are made here, once, and not by each of the lemmas below that open one.
attribute [local simp] Expr.ofDraft? Stmt.ofDraft?

/-- Nothing is read of a variant of an expression whose content nests too deep. -/
theorem Expr.ofDraft?_unusable (name : String) (fuel : Nat) :
    Expr.ofDraft? (fuel + 1) (.object [(name, .unusable)]) = none := by
  have hinner : Expr.ofDraft? fuel .unusable = none := by cases fuel <;> rfl
  simp only [Expr.ofDraft?, variant?, Option.bind_eq_bind, Option.bind_some]
  split <;> rename_i heq <;> first | rfl | (cases heq; first | rfl | rw [hinner]; rfl)

/-- An expression is read as what comes back from it. -/
def Expr.ComesBack (fuel : Nat) (e : Expr) : Prop :=
  ∀ room < fuel, Expr.ofDraft? fuel (e.toJson.draft room) = if e.toJson.nesting ≤ room then e.reread? else none

namespace Expr

variable {fuel : Nat}

/-- An expression that is written as a variant takes a level. -/
theorem comesBack_of_level {e : Expr} {name : String} {content : Json} (hjson : e.toJson = variant name content)
    (h : ∀ room < fuel, Expr.ofDraft? (fuel + 1) (.object [(name, content.draft room)]) =
      if content.nesting ≤ room then e.reread? else none) : e.ComesBack (fuel + 1) := by
  have hnest : e.toJson.nesting = content.nesting + 1 := by rw [hjson, Json.nesting_variant]
  rintro (_ | room) hroom
  · rw [hnest, if_neg (by omega), hjson]
    rfl
  · rw [hnest, hjson]
    simp only [Nat.add_le_add_iff_right]
    exact h room (by omega)

/-- An expression that is written as a record in a variant takes two levels. -/
theorem comesBack_of_two_levels {e : Expr} {name : String} {members : List (String × Json)}
    (hjson : e.toJson = variant name (.object members))
    (h : ∀ room, room + 1 < fuel →
      Expr.ofDraft? (fuel + 1) (.object [(name, (Json.object members).draft (room + 1))]) =
        if Json.nestingMembers members ≤ room then e.reread? else none) : e.ComesBack (fuel + 1) := by
  refine comesBack_of_level hjson ?_
  rintro (_ | room) hroom
  · rw [Json.nesting, if_neg (by omega)]
    exact ofDraft?_unusable name fuel
  · simp only [Json.nesting, Nat.add_le_add_iff_right]
    exact h room hroom

theorem comesBack_literal (v : Json) : (literal v).ComesBack (fuel + 1) := by
  refine comesBack_of_level rfl fun room _ => ?_
  simp only [Expr.ofDraft?, variant?, Option.bind_eq_bind, Option.bind_some, Json.value?_draft, bind_ite_none,
    Expr.reread?]
  cases v.reread? <;> rfl

theorem comesBack_model : model.ComesBack (fuel + 1) := by
  intro room _
  simp [Expr.ofDraft?, Expr.toJson, Json.variant?_string, isUnit, Json.nesting, Expr.reread?]

theorem comesBack_var (name : String) : (var name).ComesBack (fuel + 1) := by
  refine comesBack_of_level rfl fun room _ => ?_
  simp [Expr.ofDraft?, variant?, Json.asString?_draft, Json.nesting, Expr.reread?]

theorem comesBack_member {target : Expr} (name : String) (ht : target.ComesBack fuel) :
    (member target name).ComesBack (fuel + 1) := by
  refine comesBack_of_two_levels rfl fun room h => ?_
  simp (disch := first | simp only [List.map_cons, List.map_nil] | decide) only [Expr.ofDraft?, variant?,
    Json.fields?_object, List.map_cons, List.map_nil, Option.bind_eq_bind, Option.bind_some, ht room (by omega),
    Json.asString?_draft]
  simp only [bind_ite_none, Expr.reread?, Json.nestingMembers, Json.nesting, Nat.max_zero]
  cases target.reread? <;> rfl

theorem comesBack_call (callee : Callee) {args : List Expr} (ha : ∀ a ∈ args, a.ComesBack fuel) :
    (call callee args).ComesBack (fuel + 1) := by
  refine comesBack_of_two_levels rfl fun room h => ?_
  have hargs := Json.asList?_draft ha room (by omega)
  simp (disch := first | simp only [List.map_cons, List.map_nil] | decide) only [Expr.ofDraft?, variant?,
    Json.fields?_object, List.map_cons, List.map_nil, Option.bind_eq_bind, Option.bind_some, Callee.ofDraft?_toJson,
    exprsJson_eq_map, hargs]
  simp only [bind_ite_none, bind_fun_ite_none, ite_ite_none, Expr.reread?, rereadExprs?_eq_mapM, Json.nestingMembers,
    Nat.max_zero, Nat.max_le]
  exact if_congr (by omega) rfl rfl

theorem comesBack_not {operand : Expr} (ho : operand.ComesBack fuel) : (not operand).ComesBack (fuel + 1) := by
  refine comesBack_of_level rfl fun room h => ?_
  simp only [Expr.ofDraft?, variant?, Option.bind_eq_bind, Option.bind_some, ho room h, bind_ite_none, Expr.reread?]
  cases operand.reread? <;> rfl

theorem comesBack_binary (op : BinaryOp) {lhs rhs : Expr} (hl : lhs.ComesBack fuel) (hr : rhs.ComesBack fuel) :
    (binary op lhs rhs).ComesBack (fuel + 1) := by
  refine comesBack_of_two_levels rfl fun room h => ?_
  simp (disch := first | simp only [List.map_cons, List.map_nil] | decide) only [Expr.ofDraft?, variant?,
    Json.fields?_object, List.map_cons, List.map_nil, Option.bind_eq_bind, Option.bind_some, BinaryOp.ofDraft?_name,
    hl room (by omega), hr room (by omega)]
  simp only [bind_ite_none, bind_fun_ite_none, ite_ite_none, Expr.reread?, Json.nestingMembers, Json.nesting,
    Nat.max_zero, Nat.zero_max, Nat.max_le]
  exact if_congr (by omega) rfl rfl

/-- Every expression is read as what comes back from it: as the reader goes one level down, so does the text. -/
theorem comesBack (fuel : Nat) (e : Expr) : e.ComesBack fuel := by
  induction fuel generalizing e with
  | zero => exact fun room h => absurd h (Nat.not_lt_zero room)
  | succ fuel ih =>
    cases e with
    | literal v => exact comesBack_literal v
    | model => exact comesBack_model
    | var name => exact comesBack_var name
    | member target name => exact comesBack_member name (ih target)
    | call callee args => exact comesBack_call callee fun a _ => ih a
    | not operand => exact comesBack_not (ih operand)
    | binary op lhs rhs => exact comesBack_binary op (ih lhs) (ih rhs)

end Expr

/-! ### Statements -/

/-- A branch as a record. -/
def branchJson : Branch → Json
  | .mk cond body => .object [("cond", cond.toJson), ("body", .array (body.map Stmt.toJson))]

theorem branchesJson_eq_map (bs : List Branch) : branchesJson bs = bs.map branchJson := by
  induction bs with
  | nil => rfl
  | cons b bs ih =>
    obtain ⟨cond, body⟩ := b
    rw [branchesJson, ih, List.map_cons, branchJson, stmtsJson_eq_map]

theorem nesting_branchJson (cond : Expr) (body : List Stmt) : (branchJson (.mk cond body)).nesting =
    max cond.toJson.nesting (Json.array (body.map Stmt.toJson)).nesting + 1 := by
  simp [branchJson, Json.nesting, Json.nestingMembers]

/-- A statement is read as what comes back from it. -/
def Stmt.ComesBack (fuel : Nat) (s : Stmt) : Prop :=
  ∀ room < fuel, Stmt.ofDraft? fuel (s.toJson.draft room) = if s.toJson.nesting ≤ room then s.reread? else none

/-- A branch is read as what comes back from it if its statements are. -/
theorem Branch.ofDraft?_branchJson {cond : Expr} {body : List Stmt} {fuel : Nat}
    (h : ∀ s ∈ body, s.ComesBack fuel) :
    ∀ room < fuel, Branch.ofDraft? fuel (Stmt.ofDraft? fuel) ((branchJson (.mk cond body)).draft room) =
      if (branchJson (.mk cond body)).nesting ≤ room then (Branch.mk cond body).reread? else none := by
  rintro (_ | room) hroom
  · simp [Branch.ofDraft?, branchJson, Json.fields?_object_zero, Json.nesting]
  have hc := Expr.comesBack fuel cond room (by omega)
  have hb := Json.asList?_draft h room (by omega)
  rw [nesting_branchJson]
  simp (disch := first | simp only [List.map_cons, List.map_nil] | decide) only [Branch.ofDraft?, branchJson,
    Json.fields?_object, List.map_cons, List.map_nil, Option.bind_eq_bind, Option.bind_some, hc, hb, Branch.reread?,
    rereadStmts?_eq_mapM, Nat.add_le_add_iff_right, Nat.max_le]
  simp only [bind_ite_none, bind_fun_ite_none, ite_ite_none]
  exact if_congr (by omega) rfl rfl

/-- The block behind the last branch, or null. -/
def otherwiseJson (otherwise : Option (List Stmt)) : Json :=
  match otherwise with
  | none => .null
  | some body => .array (body.map Stmt.toJson)

/-- The block behind the last branch is read as what comes back from it if its statements are. -/
theorem optional?_otherwiseJson {otherwise : Option (List Stmt)} {fuel : Nat}
    (h : ∀ body, otherwise = some body → ∀ s ∈ body, s.ComesBack fuel) :
    ∀ room ≤ fuel, optional? (asList? (Stmt.ofDraft? fuel)) (some ((otherwiseJson otherwise).draft room)) =
      if (otherwiseJson otherwise).nesting ≤ room then rereadBlock? otherwise else none := by
  intro room hroom
  cases otherwise with
  | none => simp [otherwiseJson, Json.draft, optional?, Json.nesting, rereadBlock?]
  | some body =>
    have hb := Json.asList?_draft (h body rfl) room hroom
    have ho : optional? (asList? (Stmt.ofDraft? fuel)) (some ((Json.array (body.map Stmt.toJson)).draft room)) =
        (asList? (Stmt.ofDraft? fuel) ((Json.array (body.map Stmt.toJson)).draft room)).map some := by
      cases room <;> rfl
    rw [otherwiseJson, ho, hb, rereadBlock?, rereadStmts?_eq_mapM]
    by_cases hn : (Json.array (body.map Stmt.toJson)).nesting ≤ room <;> simp [hn]

namespace Stmt

variable {fuel : Nat}

/-- Nothing is read of a variant of a statement whose content nests too deep. -/
theorem ofDraft?_unusable (name : String) : Stmt.ofDraft? (fuel + 1) (.object [(name, .unusable)]) = none := by
  simp only [Stmt.ofDraft?, variant?, Option.bind_eq_bind, Option.bind_some]
  split <;> rename_i heq <;> first | rfl | (cases heq; rfl)

/-- A statement that is written as a record in a variant takes two levels. -/
theorem comesBack_of_two_levels {s : Stmt} {name : String} {members : List (String × Json)}
    (hjson : s.toJson = variant name (.object members))
    (h : ∀ room, room + 2 < fuel + 1 → Stmt.ofDraft? (fuel + 1) (.object [(name, (Json.object members).draft (room + 1))]) =
      if Json.nestingMembers members ≤ room then s.reread? else none) : s.ComesBack (fuel + 1) := by
  have hnest : s.toJson.nesting = Json.nestingMembers members + 2 := by
    rw [hjson, Json.nesting_variant, Json.nesting]
  rintro (_ | _ | room) hroom
  · rw [hjson, if_neg (by rw [← hjson, hnest]; omega)]
    rfl
  · rw [hjson, if_neg (by rw [← hjson, hnest]; omega)]
    exact ofDraft?_unusable name
  · rw [hnest, hjson]
    simp only [Nat.add_le_add_iff_right]
    exact h room hroom

theorem comesBack_write (text : String) : (write text).ComesBack (fuel + 1) := by
  rintro (_ | room) h
  · simp [Stmt.ofDraft?, Stmt.toJson, Json.variant?_variant_zero, Json.nesting_variant]
  · simp [Stmt.ofDraft?, Stmt.toJson, Json.variant?_variant, Json.asString?_draft, Json.nesting_variant, Json.nesting,
      Stmt.reread?]

theorem comesBack_emit (expr : Expr) (pos : Option SourcePos) : (emit expr pos).ComesBack (fuel + 1) := by
  refine comesBack_of_two_levels rfl fun room h => ?_
  have he := Expr.comesBack fuel expr room (by omega)
  simp (disch := first | simp only [List.map_cons, List.map_nil] | decide) only [Stmt.ofDraft?, variant?,
    Json.fields?_object, List.map_cons, List.map_nil, Option.bind_eq_bind, Option.bind_some, he, optional?_posJson?]
  simp only [bind_ite_none, bind_fun_ite_none, ite_ite_none, Stmt.reread?, Json.nestingMembers, Nat.max_zero,
    Nat.max_le]
  exact if_congr (by omega) rfl rfl

theorem comesBack_bind (name : String) (expr : Expr) (pos : Option SourcePos) :
    (Stmt.bind name expr pos).ComesBack (fuel + 1) := by
  refine comesBack_of_two_levels rfl fun room h => ?_
  have he := Expr.comesBack fuel expr room (by omega)
  simp (disch := first | simp only [List.map_cons, List.map_nil] | decide) only [Stmt.ofDraft?, variant?,
    Json.fields?_object, List.map_cons, List.map_nil, Option.bind_eq_bind, Option.bind_some, he, optional?_posJson?,
    Json.asString?_draft]
  simp only [bind_ite_none, bind_fun_ite_none, ite_ite_none, Stmt.reread?, Json.nestingMembers, Json.nesting,
    Nat.max_zero, Nat.zero_max, Nat.max_le]
  exact if_congr (by omega) rfl rfl

theorem comesBack_ifElse {branches : List Branch} {otherwise : Option (List Stmt)} (pos : Option SourcePos)
    (hb : ∀ cond body, Branch.mk cond body ∈ branches → ∀ s ∈ body, s.ComesBack fuel)
    (ho : ∀ body, otherwise = some body → ∀ s ∈ body, s.ComesBack fuel) :
    (ifElse branches otherwise pos).ComesBack (fuel + 1) := by
  have hjson : (Stmt.ifElse branches otherwise pos).toJson = variant "If" (.object [
      ("branches", .array (branches.map branchJson)), ("otherwise", otherwiseJson otherwise),
      ("at", posJson? pos)]) := by
    cases otherwise <;> simp [Stmt.toJson, branchesJson_eq_map, stmtsJson_eq_map, otherwiseJson]
  refine comesBack_of_two_levels hjson fun room h => ?_
  have hbranch : ∀ b ∈ branches, ∀ room < fuel,
      Branch.ofDraft? fuel (Stmt.ofDraft? fuel) ((branchJson b).draft room) =
        if (branchJson b).nesting ≤ room then b.reread? else none := by
    rintro ⟨cond, body⟩ hmem
    exact Branch.ofDraft?_branchJson (hb cond body hmem)
  have hbranches := Json.asList?_draft hbranch room (by omega)
  have hotherwise := optional?_otherwiseJson ho room (by omega)
  simp (disch := first | simp only [List.map_cons, List.map_nil] | decide) only [Stmt.ofDraft?, variant?,
    Json.fields?_object, List.map_cons, List.map_nil, Option.bind_eq_bind, Option.bind_some, hbranches, hotherwise,
    optional?_posJson?]
  simp only [bind_ite_none, bind_fun_ite_none, ite_ite_none, Stmt.reread?, rereadBranches?_eq_mapM,
    Json.nestingMembers, Nat.max_zero, Nat.max_le]
  exact if_congr (by omega) rfl rfl

theorem comesBack_forEach (var : String) (source : Expr) {body : List Stmt} (pos : Option SourcePos)
    (hb : ∀ s ∈ body, s.ComesBack fuel) : (forEach var source body pos).ComesBack (fuel + 1) := by
  refine comesBack_of_two_levels rfl fun room h => ?_
  have he := Expr.comesBack fuel source room (by omega)
  have hbody := Json.asList?_draft hb room (by omega)
  simp (disch := first | simp only [List.map_cons, List.map_nil] | decide) only [Stmt.ofDraft?, variant?,
    Json.fields?_object, List.map_cons, List.map_nil, Option.bind_eq_bind, Option.bind_some, he, stmtsJson_eq_map,
    hbody, optional?_posJson?, Json.asString?_draft]
  simp only [bind_ite_none, bind_fun_ite_none, ite_ite_none, Stmt.reread?, rereadStmts?_eq_mapM, Json.nestingMembers,
    Nat.max_zero, Nat.max_le]
  exact if_congr (by simp only [Json.nesting]; omega) rfl rfl

theorem comesBack_defineSection (index : Nat) : (defineSection index).ComesBack (fuel + 1) := by
  refine comesBack_of_two_levels rfl fun room h => ?_
  have hc : asCount? countLimit ((Json.ofNat index).draft room) = if index < countLimit then some index else none :=
    Json.asCount?_draft (le_refl _) index room
  simp (disch := first | simp only [List.map_cons, List.map_nil] | decide) only [Stmt.ofDraft?, variant?,
    Json.fields?_object, List.map_cons, List.map_nil, Option.bind_eq_bind, Option.bind_some, hc]
  simp only [Json.nestingMembers, Json.nesting_ofNat, Nat.max_zero, Nat.zero_le, if_true, Stmt.reread?]
  split <;> rfl

/-- Every statement is read as what comes back from it: as the reader goes one level down, so does the text. -/
theorem comesBack (fuel : Nat) (s : Stmt) : s.ComesBack fuel := by
  induction fuel generalizing s with
  | zero => exact fun room h => absurd h (Nat.not_lt_zero room)
  | succ fuel ih =>
    cases s with
    | write text => exact comesBack_write text
    | emit expr pos => exact comesBack_emit expr pos
    | bind name expr pos => exact comesBack_bind name expr pos
    | ifElse branches otherwise pos =>
      exact comesBack_ifElse pos (fun _ _ _ s _ => ih s) fun _ _ s _ => ih s
    | forEach var source body pos => exact comesBack_forEach var source pos fun s _ => ih s
    | defineSection index => exact comesBack_defineSection index

end Stmt

/-! ### Modules -/

theorem Function.ofDraft?_toJson (f : Function) {fuel room : Nat} (h : room < fuel) :
    Function.ofDraft? fuel (f.toJson.draft room) = if f.toJson.nesting ≤ room then f.reread? else none := by
  rcases room with _ | room
  · simp [Function.ofDraft?, Function.toJson, Json.fields?_object_zero, Json.nesting]
  have hparams := Json.asList?_strings f.params room (le_refl _)
  have hbody := Expr.comesBack fuel f.body room (by omega)
  have hnest : f.toJson.nesting = max 1 (max f.body.toJson.nesting (posJson? f.pos).nesting) + 1 := by
    simp [Function.toJson, Json.nesting, Json.nestingMembers, Json.nestingItems_strings]
  rw [hnest, Function.ofDraft?, Function.toJson]
  simp (disch := first | simp only [List.map_cons, List.map_nil] | decide) only [Json.fields?_object,
    List.map_cons, List.map_nil, Option.bind_eq_bind, Option.bind_some, Json.asString?_draft, hparams, hbody,
    optional?_posJson?, Nat.add_le_add_iff_right, Nat.max_le, Function.reread?]
  simp only [bind_ite_none, bind_fun_ite_none, ite_ite_none]
  exact if_congr (by omega) rfl rfl

theorem Section.ofDraft?_toJson (s : Section) {fuel room : Nat} (h : room < fuel) :
    Section.ofDraft? fuel (s.toJson.draft room) = if s.toJson.nesting ≤ room then s.reread? else none := by
  rcases room with _ | room
  · simp [Section.ofDraft?, Section.toJson, Json.fields?_object_zero, Json.nesting]
  have hbody := Json.asList?_draft (fun a (_ : a ∈ s.body) => Stmt.comesBack fuel a) room (by omega)
  have hnest : s.toJson.nesting = (Json.array (s.body.map Stmt.toJson)).nesting + 1 := by
    simp [Section.toJson, stmtsJson_eq_map, Json.nesting, Json.nestingMembers]
  rw [hnest, Section.ofDraft?, Section.toJson]
  simp (disch := first | simp only [List.map_cons, List.map_nil] | decide) only [Json.fields?_object,
    List.map_cons, List.map_nil, Option.bind_eq_bind, Option.bind_some, Json.asString?_draft, stmtsJson_eq_map, hbody,
    Nat.add_le_add_iff_right, Section.reread?, rereadStmts?_eq_mapM]
  exact bind_ite_none _ _

theorem Import.ofDraft?_toJson (i : Import) (room : Nat) :
    Import.ofDraft? (i.toJson.draft room) = if i.toJson.nesting ≤ room then some i else none := by
  have hnest : i.toJson.nesting = 1 := by simp [Import.toJson, Json.nesting, Json.nestingMembers]
  rw [hnest]
  rcases room with _ | room
  · rfl
  rw [if_pos (by omega), Import.ofDraft?, Import.toJson]
  simp (disch := first | simp only [List.map_cons, List.map_nil] | decide) only [Json.fields?_object,
    List.map_cons, List.map_nil, Option.bind_eq_bind, Option.bind_some, Json.asString?_draft]
  rfl

theorem optional?_layout (layout : Option String) (room : Nat) :
    optional? asString? (some ((ofOption .string layout).draft room)) = some layout := by
  cases layout <;> rfl

/-- A binary is read back as its module, with what comes back from its literals, if it nests at most as deep as
the reader goes. -/
theorem Module.ofDraft?_toJson (m : Module) {fuel room : Nat} (h : room < fuel) :
    Module.ofDraft? fuel (m.toJson.draft room) = if m.toJson.nesting ≤ room then m.reread? else none := by
  rcases room with _ | room
  · rw [Module.ofDraft?, Module.toJson, Json.fields?_object_zero, Json.nesting, if_neg (by omega)]
    rfl
  -- Each list is read back where it nests no deeper than there is room for it.
  have husings := Json.asList?_strings m.usings room (le_refl _)
  have himports := Json.asList?_draft (fun i (_ : i ∈ m.imports) room (_ : room < fuel) =>
    Import.ofDraft?_toJson i room) room (by omega)
  have hfunctions := Json.asList?_draft (fun f (_ : f ∈ m.functions) room (h : room < fuel) =>
    Function.ofDraft?_toJson f h) room (by omega)
  have hsections := Json.asList?_draft (fun s (_ : s ∈ m.sections) room (h : room < fuel) =>
    Section.ofDraft?_toJson s h) room (by omega)
  have hbody := Json.asList?_draft (fun s (_ : s ∈ m.body) => Stmt.comesBack fuel s) room (by omega)
  have hformat : asCount? formatLimit ((Json.ofNat m.format).draft room) =
      if m.format < formatLimit then some m.format else none :=
    Json.asCount?_draft (by decide) m.format room
  have hmapM : m.imports.mapM some = some (m.imports.map id) := List.mapM_pure
  have hnest : m.toJson.nesting = max 1 (max (Json.array (m.imports.map Import.toJson)).nesting
      (max (Json.array (m.functions.map Function.toJson)).nesting
        (max (Json.array (m.sections.map Section.toJson)).nesting
          (Json.array (m.body.map Stmt.toJson)).nesting))) + 1 := by
    have hlayout : (ofOption Json.string m.layout).nesting = 0 := by cases m.layout <;> rfl
    simp only [Module.toJson, Json.nesting, Json.nestingMembers, Json.nestingItems_strings, hlayout, stmtsJson_eq_map,
      Json.nesting_ofNat, Nat.max_zero, Nat.zero_max, Nat.zero_add]
  -- What remains are the checks, and those on nesting are together the one on the whole module.
  rw [hnest, Module.ofDraft?, Module.toJson, Json.fields?_object]
  · rw [Option.bind_eq_bind, Option.bind_some]
    simp only [List.map_cons, List.map_nil]
    rw [hformat, husings, optional?_layout, himports, hfunctions, hsections, stmtsJson_eq_map, hbody, hmapM]
    simp only [Json.asString?_draft, Json.asBool?_draft, Option.bind_eq_bind, Option.bind_some,
      Nat.add_le_add_iff_right, Nat.max_le, Module.reread?]
    simp only [bind_ite_none, bind_fun_ite_none, ite_ite_none, Option.bind_some, List.map_id, rereadStmts?_eq_mapM]
    exact if_congr (by omega) rfl rfl
  · rfl
  · decide

/-- What is read of the binary of a module. -/
theorem Module.decode?_encode (debug : Bool) (m : Module) :
    Module.decode? (m.encode debug) = if m.toJson.nesting ≤ maxNesting then m.reread? else none := by
  have hparse : Draft.parse? maxNesting (m.encode debug) = some (m.toJson.draft maxNesting) := by
    cases debug
    · exact Json.parse?_compact maxNesting m.toJson
    · exact Json.parse?_pretty maxNesting m.toJson
  rw [Module.decode?, hparse]
  exact m.ofDraft?_toJson (Nat.lt_succ_self maxNesting)

end Ir

end Stencil
