import Stencil.Proofs.Unit.Modules
import Stencil.Text.Blank

/-! What the module of a unit stands for if its sections are registered in the execute block itself, each at most
once.

A section is then lowered once where it is registered, under the locals in scope there, and what comes after leaves
it as it is: neither the statements behind it nor the sections that nothing registers change it again. -/

namespace Stencil.Unit

/-! ### The shape of units -/

/-- The names of the sections that statements register themselves. -/
def registered : List Stmt → List String
  | [] => []
  | .defineSection n :: ss => n.name :: registered ss
  | _ :: ss => registered ss

/-- Statements that register sections stand on their own, and no section is registered twice or without a name. -/
structure DirectBody (ss : List Stmt) : Prop where
  direct : ∀ s ∈ ss, s.registers = true → ∃ n, s = .defineSection n
  once : (registered ss).Nodup
  named : ∀ n ∈ registered ss, Text.allBlank n.toList = false

/-- The sections that a member registers are registered in an execute block itself. -/
def Member.RegistersDirectly : Member → Prop
  | .sectionDecl d => registersAll d.body = false
  | .execute ss _ => DirectBody ss
  | .layout .. | .function _ => True

/-- The sections of a unit are registered in its execute block itself. -/
def Tree.RegistersDirectly (t : Tree) : Prop := ∀ m ∈ t.decl.members, m.RegistersDirectly

instance (ss : List Stmt) : Decidable (DirectBody ss) :=
  decidable_of_iff ((∀ s ∈ ss, s.registers = true → registered [s] ≠ []) ∧ (registered ss).Nodup ∧
    ∀ n ∈ registered ss, Text.allBlank n.toList = false) <| by
    refine ⟨fun ⟨hd, ho, hn⟩ => ⟨fun s hs hr => ?_, ho, hn⟩, fun h => ⟨fun s hs hr => ?_, h.once, h.named⟩⟩
    · have hone := hd s hs hr
      cases s with
      | defineSection n => exact ⟨n, rfl⟩
      | _ => exact absurd rfl hone
    · obtain ⟨n, rfl⟩ := h.direct s hs hr
      exact List.cons_ne_nil _ _

instance : DecidablePred Member.RegistersDirectly
  | .sectionDecl d => inferInstanceAs (Decidable (registersAll d.body = false))
  | .execute ss _ => inferInstanceAs (Decidable (DirectBody ss))
  | .layout .. | .function _ => isTrue trivial

instance : DecidablePred Tree.RegistersDirectly := fun t =>
  inferInstanceAs (Decidable (∀ m ∈ t.decl.members, m.RegistersDirectly))

theorem registered_cons {s : Stmt} (h : s.registers = false) (ss : List Stmt) : registered (s :: ss) = registered ss := by
  cases s <;> first | rfl | cases h

theorem DirectBody.of_register {n : Named} {ss : List Stmt} (h : DirectBody (.defineSection n :: ss)) : DirectBody ss where
  direct s hs := h.direct s (List.mem_cons_of_mem _ hs)
  once := (List.nodup_cons.mp h.once).2
  named m hm := h.named m (List.mem_cons_of_mem _ hm)

theorem DirectBody.of_plain {s : Stmt} {ss : List Stmt} (h : DirectBody (s :: ss)) (hs : s.registers = false) :
    DirectBody ss where
  direct s' hs' := h.direct s' (List.mem_cons_of_mem _ hs')
  once := registered_cons hs ss ▸ h.once
  named n hn := h.named n (registered_cons hs ss ▸ hn)

/-! ### What an execute block stands for -/

/-- What the statements of an execute block stand for, and the sections that they register: their indices, with the
locals in scope. -/
inductive ResolvesBody (sc : Scope) (k : Linkage) :
    List String → List Stmt → List Ir.Stmt → List (Nat × List String) → Prop
  | nil {locals : List String} : ResolvesBody sc k locals [] [] []
  | plain {locals : List String} {s : Stmt} {s' : Ir.Stmt} {ss : List Stmt} {ss' : List Ir.Stmt}
      {regs : List (Nat × List String)} (hs : ResolvesStmt sc k locals s s')
      (hr : ResolvesBody sc k (s.binds ++ locals) ss ss' regs) : ResolvesBody sc k locals (s :: ss) (s' :: ss') regs
  | register {locals : List String} {n : Named} {index : Nat} {ss : List Stmt} {ss' : List Ir.Stmt}
      {regs : List (Nat × List String)} (hf : sc.sections.findIdx? (·.name.name == n.name) = some index)
      (hr : ResolvesBody sc k locals ss ss' regs) :
      ResolvesBody sc k locals (.defineSection n :: ss) (.defineSection index :: ss') ((index, locals) :: regs)

variable {sc : Scope}

theorem ResolvesBody.mono {k k' : Linkage} (hk : k.Le sc k') {locals : List String} {ss : List Stmt}
    {ss' : List Ir.Stmt} {regs : List (Nat × List String)} (h : ResolvesBody sc k locals ss ss' regs) :
    ResolvesBody sc k' locals ss ss' regs := by
  induction h with
  | nil => exact .nil
  | plain hs _ ih => exact .plain (hs.mono hk) ih
  | register hf _ ih => exact .register hf ih

/-- Each section that the statements register is among the registered ones. -/
theorem ResolvesBody.exists_of_registered {k : Linkage} {locals : List String} {ss : List Stmt}
    {ss' : List Ir.Stmt} {regs : List (Nat × List String)} (h : ResolvesBody sc k locals ss ss' regs) {n : String}
    (hn : n ∈ registered ss) {index : Nat} (hf : sc.sections.findIdx? (·.name.name == n) = some index) :
    ∃ ls, (index, ls) ∈ regs := by
  induction h with
  | nil => cases hn
  | @plain locals s s' ss _ _ hs _ ih =>
    cases hs <;> exact ih hn
  | @register locals m i ss _ regs hm _ ih =>
    rcases List.mem_cons.mp hn with rfl | hn
    · rw [hm, Option.some.injEq] at hf
      exact ⟨locals, hf ▸ List.mem_cons_self⟩
    · obtain ⟨ls, hls⟩ := ih hn
      exact ⟨ls, List.mem_cons_of_mem _ hls⟩

/-- A section has been lowered under some locals. -/
def Compiled (sc : Scope) (s : Findings) (index : Nat) (locals : List String) : Prop :=
  ∃ decl body, sc.sections[index]? = some decl ∧ s.sections[index]? = some (some ⟨decl.name.name, body⟩) ∧
    ResolvesStmts sc (.ofImports s.imports) locals decl.body body

theorem Compiled.later {references : List Reference} {s s' : Findings} {index : Nat} {locals : List String}
    (h : Compiled sc s index locals) (he : s.Extends references s') (hs : s'.sections[index]? = s.sections[index]?) :
    Compiled sc s' index locals := by
  obtain ⟨decl, body, hd, hb, hr⟩ := h
  exact ⟨decl, body, hd, hs ▸ hb, hr.mono (Linkage.ofImports_mono sc he.imports)⟩

/-! ### Lowering the execute block -/

theorem run_bind {x : Lower α} {f : α → Lower β} {s s'' : Findings} {b : β} (h : (x >>= f) s = some (b, s'')) :
    ∃ a s', x s = some (a, s') ∧ f a s' = some (b, s'') := by
  rw [show (x >>= f) s = (x s).bind fun r => f r.1 r.2 from rfl, Option.bind_eq_some_iff] at h
  obtain ⟨⟨a, s'⟩, hx, hf⟩ := h
  exact ⟨a, s', hx, hf⟩

/-- Lowering a section whose body registers none changes that section only. -/
theorem lowerSection_spec {depth index : Nat} {locals : List String} {s s' : Findings} {decl : SectionDecl}
    (hd : sc.sections[index]? = some decl) (hflat : registersAll decl.body = false)
    (hlen : s.sections.length = sc.sections.length)
    (h : lowerSection sc depth index locals s = some ((), s')) :
    s.Extends sc.references s' ∧ (∀ j, j ≠ index → s'.sections[j]? = s.sections[j]?) ∧
      (s'.Clean → Compiled sc s' index locals) := by
  have hgrows := grows_lowerSection depth index locals s () s' h
  rcases depth with _ | depth
  · cases h
  rw [lowerSection, hd] at h
  obtain ⟨body, s₁, hbody, hset⟩ := run_bind h
  obtain ⟨he, hsections, hsound⟩ := sound_lowerStmts locals decl.body hflat s body s₁ hbody
  cases hset
  refine ⟨hgrows, ?_, fun hclean => ⟨decl, body, hd, ?_, hsound hclean⟩⟩
  · intro j hj
    simp only [List.getElem?_set_ne (Ne.symm hj), hsections]
  · obtain ⟨hlt, -⟩ := List.getElem?_eq_some_iff.mp hd
    simp only [hsections]
    rw [List.getElem?_set_self (by omega)]

/-- Lowering an execute block changes only the sections that it registers, and leaves each of them as it was lowered
where it is registered. -/
structure BodyLowered (sc : Scope) (locals : List String) (ss : List Stmt) (ss' : List Ir.Stmt) (s s' : Findings) :
    Prop where
  grows : s.Extends sc.references s'
  frame : ∀ j, (∀ n ∈ registered ss, sc.sections.findIdx? (·.name.name == n) ≠ some j) →
    s'.sections[j]? = s.sections[j]?
  resolves : s'.Clean → ∃ regs, ResolvesBody sc (.ofImports s'.imports) locals ss ss' regs ∧
    ∀ r ∈ regs, Compiled sc s' r.1 r.2

namespace BodyLowered
variable {locals : List String} {ss : List Stmt} {ss' : List Ir.Stmt} {s s₁ s' : Findings}

theorem nil : BodyLowered sc locals [] [] s s where
  grows := .refl _ _
  frame _ _ := rfl
  resolves _ := ⟨[], .nil, fun r hr => by cases hr⟩

theorem plain {lowerSection : SectionLowering} {stmt : Stmt} {lowered : Option Ir.Stmt} (hflat : stmt.registers = false)
    (hstmt : lowerStmt sc lowerSection locals stmt s = some (lowered, s₁))
    (h : BodyLowered sc (stmt.binds ++ locals) ss ss' s₁ s') :
    BodyLowered sc locals (stmt :: ss) (lowered.toList ++ ss') s s' := by
  obtain ⟨he, hsec, hsound⟩ := sound_lowerStmt locals stmt hflat s lowered s₁ hstmt
  refine ⟨he.trans h.grows, fun j hj => ?_, fun hc => ?_⟩
  · rw [registered_cons hflat] at hj
    rw [h.frame j hj, hsec]
  · obtain ⟨i, rfl, hi⟩ := hsound (h.grows.clean hc)
    obtain ⟨regs, hregs, hall⟩ := h.resolves hc
    exact ⟨regs, .plain (hi.mono (Linkage.ofImports_mono sc h.grows.imports)) hregs, hall⟩

/-- A section that is not declared is an error. -/
theorem undeclared {n : Named} (hreport : (report n.pos (.sectionUndeclared n.name)).lift s = some ((), s₁))
    (h : BodyLowered sc locals ss ss' s₁ s') : BodyLowered sc locals (.defineSection n :: ss) ss' s s' := by
  obtain ⟨he, hsec, hfalse⟩ := Sound.report (P := fun _ _ => False) rfl s _ s₁ hreport
  refine ⟨he.trans h.grows, fun j hj => ?_, fun hc => (hfalse (h.grows.clean hc)).elim⟩
  rw [h.frame j fun m hm => hj m (List.mem_cons_of_mem _ hm), hsec]

/-- A section that is registered is lowered there, and the statements after it do not register it again. -/
theorem register (hflat : ∀ d ∈ sc.sections, registersAll d.body = false) {depth index : Nat} {n : Named}
    (hf : sc.sections.findIdx? (·.name.name == n.name) = some index) (honce : n.name ∉ registered ss)
    (hlen : s.sections.length = sc.sections.length) (hsection : lowerSection sc depth index locals s = some ((), s₁))
    (h : BodyLowered sc locals ss ss' s₁ s') :
    BodyLowered sc locals (.defineSection n :: ss) (.defineSection index :: ss') s s' := by
  obtain ⟨hlt, heq, -⟩ := List.findIdx?_eq_some_iff_getElem.mp hf
  have hd : sc.sections[index]? = some sc.sections[index] := List.getElem?_eq_getElem hlt
  obtain ⟨he, hother, hdone⟩ := lowerSection_spec hd (hflat _ (List.getElem_mem hlt)) hlen hsection
  have hkept : s'.sections[index]? = s₁.sections[index]? := by
    refine h.frame index fun m hm hm' => ?_
    obtain ⟨hlt', heq', -⟩ := List.findIdx?_eq_some_iff_getElem.mp hm'
    rw [beq_iff_eq] at heq heq'
    refine honce ?_
    rw [← heq, heq']
    exact hm
  refine ⟨he.trans h.grows, fun j hj => ?_, fun hc => ?_⟩
  · rw [h.frame j fun m hm => hj m (List.mem_cons_of_mem _ hm),
      hother j fun hji => hj n.name List.mem_cons_self (hji ▸ hf)]
  · obtain ⟨regs, hregs, hall⟩ := h.resolves hc
    refine ⟨(index, locals) :: regs, .register hf hregs, ?_⟩
    intro r hr
    rcases List.mem_cons.mp hr with rfl | hr
    · exact (hdone (h.grows.clean hc)).later h.grows hkept
    · exact hall r hr

end BodyLowered

/-- Lowering an execute block leaves each section as it was lowered where it is registered. -/
theorem lowerStmts_spec (hflat : ∀ d ∈ sc.sections, registersAll d.body = false) {depth : Nat} {ss : List Stmt}
    (hbody : DirectBody ss) {locals : List String} {s s' : Findings} {ss' : List Ir.Stmt}
    (hlen : s.sections.length = sc.sections.length)
    (h : lowerStmts sc (lowerSection sc depth) locals ss s = some (ss', s')) : BodyLowered sc locals ss ss' s s' := by
  induction ss generalizing locals s ss' with
  | nil =>
    rw [lowerStmts] at h
    cases h
    exact .nil
  | cons stmt ss ih =>
    rw [lowerStmts_cons] at h
    obtain ⟨lowered, s₁, hstmt, h⟩ := run_bind h
    obtain ⟨rest, s₂, hrest, h⟩ := run_bind h
    cases h
    have hlen₁ : s₁.sections.length = sc.sections.length :=
      (grows_lowerStmt (grows_lowerSection depth) locals stmt s lowered s₁ hstmt).sections.trans hlen
    by_cases hreg : stmt.registers = true
    · -- A registration stands in the body itself, so that it is seen here and not inside of a statement.
      obtain ⟨n, rfl⟩ := hbody.direct stmt List.mem_cons_self hreg
      have htail := ih hbody.of_register hlen₁ hrest
      rw [lowerStmt] at hstmt
      rcases hf : sc.sections.findIdx? (·.name.name == n.name) with _ | index
      · rw [hf] at hstmt
        obtain ⟨_, s₃, hreport, hstmt⟩ := run_bind hstmt
        cases hstmt
        exact .undeclared hreport htail
      · rw [hf] at hstmt
        obtain ⟨_, s₃, hsection, hstmt⟩ := run_bind hstmt
        cases hstmt
        exact .register hflat hf (List.nodup_cons.mp hbody.once).1 hlen hsection htail
    · have hplain : stmt.registers = false := Bool.eq_false_iff.mpr hreg
      exact .plain hplain hstmt (ih (hbody.of_plain hplain) hlen₁ hrest)

/-! ### Sections that nothing registers -/

/-- Lowering sections that are left, from one index on, keeps the ones that have been lowered, and lowers the others
without locals. -/
structure LeftLowered (sc : Scope) (n index : Nat) (s s' : Findings) : Prop where
  grows : s.Extends sc.references s'
  keeps : ∀ j : Nat, (s.sections[j]?).join.isSome → s'.sections[j]? = s.sections[j]?
  lowers : s'.Clean → ∀ j, index ≤ j → j < index + n → j < sc.sections.length →
    (s.sections[j]?).join.isSome ∨ Compiled sc s' j []

theorem Compiled.isSome {s : Findings} {index : Nat} {locals : List String} (h : Compiled sc s index locals) :
    (s.sections[index]?).join.isSome := by
  obtain ⟨_, _, -, hset, -⟩ := h
  rw [hset]
  rfl

theorem lowerSection_absent {depth index : Nat} {locals : List String} {s s' : Findings}
    (hd : sc.sections[index]? = none) (h : lowerSection sc depth index locals s = some ((), s')) : s' = s := by
  rcases depth with _ | depth
  · cases h
  · rw [lowerSection, hd] at h
    cases h
    rfl

namespace LeftLowered
variable {n index : Nat} {s s₁ s' : Findings}

theorem zero : LeftLowered sc 0 index s s where
  grows := .refl _ _
  keeps _ _ := rfl
  lowers _ j hj hj' := absurd hj' (by omega)

/-- There is no section with this index, and none behind it. -/
theorem absent (hd : sc.sections[index]? = none) (h : LeftLowered sc n (index + 1) s s') :
    LeftLowered sc (n + 1) index s s' where
  grows := h.grows
  keeps := h.keeps
  lowers _ j hj _ hj' := by
    have hout : sc.sections.length ≤ index := List.getElem?_eq_none_iff.mp hd
    exact absurd hj' (by omega)

theorem lower {depth : Nat} {decl : SectionDecl} (hd : sc.sections[index]? = some decl)
    (hflat : registersAll decl.body = false) (hlen : s.sections.length = sc.sections.length)
    (hnone : (s.sections[index]?).join = none) (hsection : lowerSection sc depth index [] s = some ((), s₁))
    (h : LeftLowered sc n (index + 1) s₁ s') : LeftLowered sc (n + 1) index s s' := by
  obtain ⟨he, hother, hdone⟩ := lowerSection_spec hd hflat hlen hsection
  refine ⟨he.trans h.grows, fun j hsome => ?_, fun hc j hj hj' hjlen => ?_⟩
  · have hne : j ≠ index := by
      rintro rfl
      rw [hnone] at hsome
      cases hsome
    rw [← hother j hne] at hsome ⊢
    exact h.keeps j hsome
  · by_cases hji : j = index
    · subst hji
      have hcompiled := hdone (h.grows.clean hc)
      exact .inr (hcompiled.later h.grows (h.keeps j hcompiled.isSome))
    · rcases h.lowers hc j (by omega) (by omega) hjlen with hsome | hcompiled
      · exact .inl (hother j hji ▸ hsome)
      · exact .inr hcompiled

theorem skip (hsome : (s.sections[index]?).join.isSome) (h : LeftLowered sc n (index + 1) s s') :
    LeftLowered sc (n + 1) index s s' := by
  refine ⟨h.grows, h.keeps, fun hc j hj hj' hjlen => ?_⟩
  by_cases hji : j = index
  · exact .inl (hji ▸ hsome)
  · exact h.lowers hc j (by omega) (by omega) hjlen

end LeftLowered

theorem lowerLeft_spec (hflat : ∀ d ∈ sc.sections, registersAll d.body = false) {depth n index : Nat} {s s' : Findings}
    (hlen : s.sections.length = sc.sections.length) (h : lowerLeft sc depth n index s = some ((), s')) :
    LeftLowered sc n index s s' := by
  induction n generalizing index s with
  | zero =>
    cases h
    exact .zero
  | succ n ih =>
    rw [lowerLeft] at h
    change (do
      if ((s.sections[index]?).join.isNone) then lowerSection sc depth index []
      lowerLeft sc depth n (index + 1) : Lower PUnit) s = some ((), s') at h
    split at h
    · rename_i hnone
      obtain ⟨_, s₁, hsection, hrest⟩ := run_bind h
      have hlen₁ : s₁.sections.length = sc.sections.length :=
        (grows_lowerSection depth index [] s () s₁ hsection).sections.trans hlen
      have hleft := ih hlen₁ hrest
      rcases hd : sc.sections[index]? with _ | decl
      · obtain rfl := lowerSection_absent hd hsection
        exact .absent hd hleft
      · exact .lower hd (hflat decl (List.mem_of_getElem? hd)) hlen (Option.isNone_iff_eq_none.mp hnone) hsection hleft
    · rename_i hsome
      refine .skip ?_ (ih hlen h)
      simpa [Option.isNone_iff_eq_none, Option.isSome_iff_ne_none] using hsome

/-! ### The module of a unit -/

/-- What a section of a module stands for that is lowered under some locals. -/
def RealizesSection (sc : Scope) (k : Linkage) (m : Ir.Module) (index : Nat) (locals : List String) : Prop :=
  ∃ decl body, sc.sections[index]? = some decl ∧ m.sections[index]? = some ⟨decl.name.name, body⟩ ∧
    ResolvesStmts sc k locals decl.body body

/-- A module stands for a class with an execute block: function by function, section by section, and the block
statement by statement. Each section is lowered under the locals in scope where it is registered. -/
structure Realizes (sc : Scope) (k : Linkage) (execute : List Stmt) (m : Ir.Module) : Prop where
  functions : List.Forall₂ (RealizesFunction sc k) sc.functions m.functions
  body : ∃ regs, ResolvesBody sc k [] execute m.body regs ∧ ∀ r ∈ regs, RealizesSection sc k m r.1 r.2
  sections : ∀ index, index < m.sections.length → ∃ locals, RealizesSection sc k m index locals

theorem getElem?_filterMap_id {xs : List (Option α)} (h : ∀ x ∈ xs, x.isSome) (i : Nat) :
    (xs.filterMap id)[i]? = (xs[i]?).join := by
  induction xs generalizing i with
  | nil => rfl
  | cons x xs ih =>
    obtain ⟨a, rfl⟩ := Option.isSome_iff_exists.mp (h x (by simp))
    cases i with
    | zero => rfl
    | succ i => simpa using ih (fun y hy => h y (by simp [hy])) i

theorem isSome_of_getElem? {xs : List (Option α)} (h : ∀ i, i < xs.length → ∃ a, xs[i]? = some (some a)) :
    ∀ x ∈ xs, x.isSome := by
  intro x hx
  obtain ⟨i, hi, rfl⟩ := List.getElem_of_mem hx
  obtain ⟨a, ha⟩ := h i hi
  rw [List.getElem?_eq_getElem hi, Option.some.injEq] at ha
  rw [ha]
  rfl

namespace Outline

theorem mem_sections {o : Outline} {members : List Member} {d : SectionDecl}
    (h : d ∈ (members.foldl add o).sections) : d ∈ o.sections ∨ .sectionDecl d ∈ members := by
  induction members generalizing o with
  | nil => exact .inl h
  | cons m ms ih =>
    rcases ih h with h | h
    · cases m with
      | sectionDecl decl =>
        simp only [add, blame] at h
        split at h
        · exact .inl h
        · rcases List.mem_append.mp h with h | h
          · exact .inl h
          · exact .inr (by simp [List.mem_singleton.mp h])
      | layout key inherited pos =>
        simp only [add, blame] at h
        split at h <;> exact .inl h
      | function decl =>
        simp only [add, blame] at h
        split at h <;> exact .inl h
      | execute body pos =>
        simp only [add, blame] at h
        split at h <;> exact .inl h
    · exact .inr (List.mem_cons_of_mem _ h)

theorem mem_execute {o : Outline} {members : List Member} {body : List Stmt}
    (h : (members.foldl add o).execute = some body) :
    o.execute = some body ∨ ∃ pos, .execute body pos ∈ members := by
  induction members generalizing o with
  | nil => exact .inl h
  | cons m ms ih =>
    rcases ih h with h | ⟨pos, h⟩
    · cases m with
      | execute b pos =>
        simp only [add, blame] at h
        obtain rfl : b = body := Option.some.inj h
        exact .inr ⟨pos, by simp⟩
      | layout key inherited pos =>
        simp only [add, blame] at h
        split at h <;> exact .inl h
      | function decl =>
        simp only [add, blame] at h
        split at h <;> exact .inl h
      | sectionDecl decl =>
        simp only [add, blame] at h
        split at h <;> exact .inl h
    · exact .inr ⟨pos, List.mem_cons_of_mem _ h⟩

end Outline

/-- Without errors there is an execute block. It is lowered after the functions, and then the sections that are left. -/
theorem lowerOutline_steps {t : Tree} {options : LoweringOptions} {references : List Reference}
    {functions : List Ir.Function} {body : List Ir.Stmt} {s : Findings}
    (hrun : lowerOutline (t.scope options references) t.outline t.decl.name.pos (t.start options references) =
      some ((functions, body), s)) (hclean : s.Clean) :
    ∃ execute s₁ s₂, t.outline.execute = some execute ∧
      s₁.sections.length = (t.scope options references).sections.length ∧
      (∀ i : Nat, (s₁.sections[i]?).join = none) ∧
      (s₁.Clean → List.Forall₂ (RealizesFunction (t.scope options references) (.ofImports s₁.imports))
        t.outline.functions functions) ∧
      lowerStmts (t.scope options references) (lowerSection (t.scope options references) t.outline.sections.length) []
        execute s₁ = some (body, s₂) ∧
      lowerLeft (t.scope options references) t.outline.sections.length t.outline.sections.length 0 s₂ =
        some ((), s) := by
  unfold lowerOutline at hrun
  obtain ⟨fs, s₁, hfunctions, hrun⟩ := run_bind hrun
  obtain ⟨-, hsections, hsound⟩ := sound_lowerFunctions t.outline.functions _ _ _ hfunctions
  dsimp only at hrun
  rcases hexecute : t.outline.execute with _ | execute
  · -- A class without an execute block is an error.
    rw [hexecute] at hrun
    obtain ⟨_, s₂, hreport, hrun⟩ := run_bind hrun
    obtain ⟨_, s₃, hnil, hrun⟩ := run_bind hrun
    cases hnil
    obtain ⟨_, s₃, hleft, hrun⟩ := run_bind hrun
    cases hrun
    have hsound : Sound (t.scope options references) (report t.decl.name.pos .noExecute).lift fun _ _ => False :=
      Sound.report rfl
    exact ((hsound _ _ _ hreport).2.2 ((grows_lowerLeft _ _ _ _ _ _ hleft).clean hclean)).elim
  · rw [hexecute] at hrun
    obtain ⟨body', s₂, hbody, hrun⟩ := run_bind hrun
    obtain ⟨_, s₃, hleft, hrun⟩ := run_bind hrun
    cases hrun
    refine ⟨execute, s₁, s₂, rfl, ?_, fun i => ?_, hsound, hbody, hleft⟩
    · rw [hsections]
      simp [Tree.start, Tree.scope]
    · rw [hsections]
      simp only [Tree.start, List.getElem?_map]
      cases t.outline.sections[i]? <;> rfl

theorem Tree.RegistersDirectly.sections {t : Tree} (h : t.RegistersDirectly) (options : LoweringOptions)
    (references : List Reference) : ∀ d ∈ (t.scope options references).sections, registersAll d.body = false := by
  intro d hd
  rcases Outline.mem_sections hd with hd | hd
  · cases hd
  · exact h _ hd

theorem Tree.RegistersDirectly.execute {t : Tree} (h : t.RegistersDirectly) {execute : List Stmt}
    (hexecute : t.outline.execute = some execute) : DirectBody execute := by
  rcases Outline.mem_execute hexecute with hbody | ⟨pos, hbody⟩
  · cases hbody
  · exact h _ hbody

/-- Without errors, the module of a unit that registers its sections directly realizes it. -/
theorem realizes_of_clean {t : Tree} {options : LoweringOptions} {references : List Reference}
    {functions : List Ir.Function} {body : List Ir.Stmt} {s : Findings} (hshape : t.RegistersDirectly)
    (hrun : lowerOutline (t.scope options references) t.outline t.decl.name.pos (t.start options references) =
      some ((functions, body), s)) (hclean : s.Clean) :
    ∃ execute, t.outline.execute = some execute ∧ DirectBody execute ∧
      Realizes (t.scope options references) (.ofImports s.imports) execute
        (t.assemble options functions body s) := by
  have hflat := hshape.sections options references
  obtain ⟨execute, s₁, s₂, hexecute, hlen₁, hstart, hsound, hbody, hleft⟩ := lowerOutline_steps hrun hclean
  have hdirect : DirectBody execute := hshape.execute hexecute
  have hlowers := lowerStmts_spec hflat hdirect hlen₁ hbody
  have hrest := lowerLeft_spec hflat (hlowers.grows.sections.trans hlen₁) hleft
  obtain ⟨regs, hregs, hdone⟩ := hlowers.resolves (hrest.grows.clean hclean)
  have hgrows := hlowers.grows.trans hrest.grows
  have hfinal : ∀ r ∈ regs, Compiled (t.scope options references) s r.1 r.2 := fun r hr =>
    (hdone r hr).later hrest.grows (hrest.keeps r.1 (hdone r hr).isSome)
  -- A section that is not registered was not lowered before, so it is lowered at the end.
  have hall : ∀ j, j < (t.scope options references).sections.length →
      ∃ ls, Compiled (t.scope options references) s j ls := by
    intro j hj
    rcases hrest.lowers hclean j (Nat.zero_le j) (by simpa [Tree.scope] using hj) hj with hsome | hcompiled
    · by_cases hreg : ∃ n ∈ registered execute,
          (t.scope options references).sections.findIdx? (·.name.name == n) = some j
      · obtain ⟨n, hn, hf⟩ := hreg
        obtain ⟨ls, hls⟩ := hregs.exists_of_registered hn hf
        exact ⟨ls, hfinal _ hls⟩
      · rw [hlowers.frame j fun n hn hf => hreg ⟨n, hn, hf⟩, hstart j] at hsome
        cases hsome
    · exact ⟨[], hcompiled⟩
  have hsome : ∀ x ∈ s.sections, x.isSome := by
    refine isSome_of_getElem? fun j hj => ?_
    rw [hgrows.sections, hlen₁] at hj
    obtain ⟨ls, decl, b, -, hset, -⟩ := hall j hj
    exact ⟨_, hset⟩
  have hsections : ∀ j ls, Compiled (t.scope options references) s j ls →
      RealizesSection (t.scope options references) (.ofImports s.imports) (t.assemble options functions body s) j
        ls := by
    rintro j ls ⟨decl, b, hd, hset, hr⟩
    refine ⟨decl, b, hd, ?_, hr⟩
    simp only [Tree.assemble, getElem?_filterMap_id hsome, hset]
    rfl
  refine ⟨execute, hexecute, hdirect, ?_, ⟨regs, ?_, ?_⟩, ?_⟩
  · exact (hsound (hgrows.clean hclean)).imp fun _ _ h => h.mono (Linkage.ofImports_mono _ hgrows.imports)
  · exact hregs.mono (Linkage.ofImports_mono _ hrest.grows.imports)
  · exact fun r hr => hsections r.1 r.2 (hfinal r hr)
  · intro j hj
    have hlen : (t.assemble options functions body s).sections.length ≤ s.sections.length :=
      List.length_filterMap_le ..
    rw [hgrows.sections, hlen₁] at hlen
    obtain ⟨ls, hls⟩ := hall j (by omega)
    exact ⟨ls, hsections j ls hls⟩

end Stencil.Unit
