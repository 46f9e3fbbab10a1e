import Stencil.Proofs.Render.Registering
import Stencil.Proofs.Unit.Checked

/-! Running the programs of checked units.

The sections that a program registers are under their own names, each once, and are rendered with the locals that the
checker had in scope where they are registered. So a run fails only for reasons that no check rules out, or in what it
did not bring along itself: its host, and the sections of the frames around it. -/

namespace Stencil

variable {σ : Type}

/-- The code of a template fails by itself, with something that no check rules out. -/
def CompiledTemplate.FailsItself (t : CompiledTemplate) (modelType : ModelType) (model : Json) (h : Halt) : Prop :=
  ∃ names ss f, t.module.Code ss ∧ t.program.Raises (t.program.FailsChecked modelType model) names ss f ∧
    Placed t.template f h

/-- How a run of a template's body in a frame of its own on top of a context can fail. -/
inductive CompiledTemplate.Excused (t : CompiledTemplate) (modelType : ModelType) (model : Json) (host : Host σ)
    (outer : Context Action) : Halt → Prop
  | itself {h : Halt} (hh : t.FailsItself modelType model h) : Excused t modelType model host outer h
  /-- A partial has no output. -/
  | embedded {key : String} {m : ModelType} {v : Json} {s : σ} {h : Halt} (hh : (host.embed key m v s).1 = .error h) :
      Excused t modelType model host outer h
  /-- A section of the frames around it fails, or one that such a section registers. -/
  | outer {a : Action} {h : Halt} (ha : outer.Yields a) (hh : a.MayFail h) : Excused t modelType model host outer h
  /-- A section of the frames around it has registered the name in the new frame. -/
  | claimed {n : String} (hn : outer.Claims n) :
      Excused t modelType model host outer (.error (.ofCause t.template (.duplicateSection n)))
  | exhausted : Excused t modelType model host outer .exhausted

/-! ### Sections -/

theorem Action.renderWith_keeps {a : Action} {host : Host σ} {renderSection : String → Execution σ (Option String)}
    {I : Scene σ → Prop} {E : Halt → Prop}
    (hm : (⟨a.compiled, a.model, host, renderSection⟩ : Machine σ).Surrounded I E)
    (hslot : a.section? = none → E (.error (.ofCause a.compiled.template (.invalidBinary (.sectionSlot a.index)))))
    (hs : ∀ s, a.section? = some s →
      (⟨a.compiled, a.model, host, renderSection⟩ : Machine σ).Admits I E a.locals.names s.body) :
    Keeps I E (fun _ => True) (a.renderWith host renderSection) := by
  unfold Action.renderWith
  split
  · rename_i h
    exact .throw (hslot h)
  · rename_i s h
    exact Machine.output_keeps hm (hs s h)

/-- A section that a context yields registers only such sections, and fails only as its code can. -/
theorem Context.Yields.renderWith_keeps {outer : Context Action} {known : Action → Prop} {names : List String}
    {E : Halt → Prop} (hknown : ∀ a, outer.Yields a → known a) (hE : ∀ a h, outer.Yields a → a.MayFail h → E h)
    {a : Action} (ha : outer.Yields a) {host : Host σ} {renderSection : String → Execution σ (Option String)}
    (hm : (⟨a.compiled, a.model, host, renderSection⟩ : Machine σ).Surrounded
      (Scene.Fresh known outer.Claims names) E) :
    Keeps (Scene.Fresh known outer.Claims names) E (fun _ => True) (a.renderWith host renderSection) := by
  refine a.renderWith_keeps hm (fun h => hE a _ ha (.slot h)) fun s hs => ⟨fun f h hf hp => ?_, ?_⟩
  · exact hE a h ha (.raises hs hf hp)
  · rintro names' index locals hr rfl
    have hregisters : a.Registers ⟨a.compiled, a.model, index, locals⟩ := ⟨⟨s, hs, hr⟩, rfl, rfl⟩
    refine register_fresh (hknown _ (.registered ha hregisters)) ⟨a, _, ha, hregisters, rfl⟩ ?_ ?_
    · exact hE a _ ha (.unnamed hregisters)
    · exact hE a _ ha (.duplicate hregisters)

namespace Unit

variable {sc : Scope} {k : Linkage} {t : CompiledTemplate} {model : Json}

/-- A section of a template that stands for one of its unit, with the names in scope there among its locals. -/
structure Carries (sc : Scope) (k : Linkage) (t : CompiledTemplate) (model : Json) (a : Action) : Prop where
  compiled : a.compiled = t
  model : a.model = model
  body : ∃ locals, RealizesSection sc k t.module a.index locals ∧ locals ⊆ a.locals.names

theorem Carries.code {a : Action} (ha : Carries sc k t model a) :
    ∃ s locals body, a.section? = some s ∧ t.module.Code s.body ∧ ResolvesStmts sc k locals body s.body ∧
      locals ⊆ a.locals.names := by
  obtain ⟨locals, ⟨decl, body, hd, hs, hr⟩, hl⟩ := ha.body
  refine ⟨_, locals, decl.body, ?_, .ofSection (List.mem_of_getElem? hs), hr, hl⟩
  rw [Action.section?, ha.compiled]
  exact hs

theorem Carries.not_registers {a : Action} (ha : Carries sc k t model a) (b : Action) : ¬a.Registers b := by
  intro h
  obtain ⟨s, hs, hr⟩ := h.reached
  obtain ⟨s', locals, body, hs', -, hres, -⟩ := ha.code
  obtain rfl : s = s' := Option.some.inj (hs.symm.trans hs')
  exact hres.not_reaches_defineSection hr

/-- What the rules below are about: the program of a checked unit, whose functions and helpers are those of the unit. -/
structure Running (sc : Scope) (k : Linkage) (t : CompiledTemplate) : Prop where
  functions : List.Forall₂ (RealizesFunction sc k) sc.functions t.program.module.functions
  slots : ∀ slot r name h, k.slot slot r name h → t.program.helpers[slot]? = some h

variable {known : Action → Prop} {claimed : String → Prop} {I : Scene σ → Prop} {E : Halt → Prop} {host : Host σ}
  {renderSection : String → Execution σ (Option String)}

/-- Checked statements are admitted wherever the failures of the template itself are. -/
theorem ResolvesStmts.admits (ht : Running sc k t)
    (hE : ∀ h, t.FailsItself sc.options.modelType model h → E h) {names names' locals : List String} {ss : List Stmt}
    {ss' code : List Ir.Stmt} (hcode : t.module.Code code) (hr : ResolvesStmts sc k locals ss ss')
    (hl : locals ⊆ names) (hsub : ∀ n s, Reaches names ss' n s → Reaches names' code n s) :
    (⟨t, model, host, renderSection⟩ : Machine σ).Admits I E names ss' where
  raises f h hf hp := by
    have hraises := (hr.raises ht.functions ht.slots hl hf).within hsub
    exact hE h ⟨names', code, f, hcode, hraises, hp⟩
  registers n index locals hreach := (hr.not_reaches_defineSection hreach).elim

/-- Rendering a section of a checked unit fails only as the template itself can, or in what is around it. -/
theorem Carries.renderWith_keeps (ht : Running sc k t)
    (hE : ∀ h, t.FailsItself sc.options.modelType model h → E h) {a : Action} (ha : Carries sc k t model a)
    (hm : (⟨t, model, host, renderSection⟩ : Machine σ).Surrounded I E) :
    Keeps I E (fun _ => True) (a.renderWith host renderSection) := by
  obtain ⟨s, locals, body, hs, hcode, hr, hl⟩ := ha.code
  obtain rfl := ha.compiled
  obtain rfl := ha.model
  refine a.renderWith_keeps hm (fun h => ?_) fun s' hs' => ?_
  · rw [hs] at h
    cases h
  · obtain rfl : s = s' := Option.some.inj (hs.symm.trans hs')
    exact hr.admits ht hE hcode hl fun _ _ h => h

/-! ### Scenes of a run -/

/-- The sections of a scene come from the context around the run or are sections of the template, and of some names
the top frame has only those that the context claims. -/
abbrev Within (sc : Scope) (k : Linkage) (t : CompiledTemplate) (model : Json) (outer : Context Action)
    (names : List String) (s : Scene σ) : Prop :=
  Scene.Fresh (fun a => outer.Yields a ∨ Carries sc k t model a) outer.Claims names s

variable {outer : Context Action}

/-- Whatever visible section is rendered, it is one of the template or of the context around it. -/
theorem renderSectionTo_keeps (ht : Running sc k t) (names : List String) (depth : Nat) (name : String) :
    Keeps (Within sc k t model outer names) (t.Excused sc.options.modelType model host outer) (fun _ => True)
      (renderSectionTo host depth name) := by
  induction depth generalizing name with
  | zero => exact renderVisible_fresh fun _ _ => .throw .exhausted
  | succ depth ih =>
    refine renderVisible_fresh fun a ha => ?_
    have hpartial : ∀ key m v, Keeps (Within sc k t model outer names) (t.Excused sc.options.modelType model host outer)
        (fun _ => True) (host.partial key m v) := partial_keeps fun _ _ _ _ _ hh => .embedded hh
    rcases ha with ha | ha
    · exact ha.renderWith_keeps (fun _ => .inl) (fun _ _ => .outer) ⟨ih, hpartial⟩
    · exact ha.renderWith_keeps ht (fun _ => .itself) ⟨ih, hpartial⟩

/-- What is around the code of the template keeps the scenes of its run. -/
theorem surrounded (ht : Running sc k t) (names : List String) (depth : Nat) :
    (⟨t, model, host, renderSectionTo host depth⟩ : Machine σ).Surrounded (Within sc k t model outer names)
      (t.Excused sc.options.modelType model host outer) :=
  ⟨renderSectionTo_keeps ht names depth, partial_keeps fun _ _ _ _ _ hh => .embedded hh⟩

/-! ### The execute block -/

theorem execAll_cons (m : Machine σ) (locals : Locals) (stmt : Ir.Stmt) (ss : List Ir.Stmt) (s : Scene σ) :
    m.execAll locals (stmt :: ss) s = match (m.exec locals stmt s).1 with
      | .ok r => (m.execAll r.1 ss >>= fun ps => pure (r.2 ++ ps)) (m.exec locals stmt s).2
      | .error h => (.error h, (m.exec locals stmt s).2) := by
  rw [Machine.execAll, bind_run]
  rcases (m.exec locals stmt s).1 with h | r <;> rfl

/-- What is made of an output changes neither the scene nor the failure. -/
theorem run_pure {α β : Type} (x : Execution σ α) (f : α → β) (s : Scene σ) :
    ((x >>= fun a => pure (f a)) s).2 = (x s).2 ∧
      ∀ h, ((x >>= fun a => pure (f a)) s).1 = .error h → (x s).1 = .error h := by
  rw [bind_run]
  rcases (x s).1 with e | a
  · refine ⟨rfl, fun h hh => ?_⟩
    cases hh
    rfl
  · refine ⟨rfl, fun h hh => ?_⟩
    cases hh

theorem Within.forget {names : List String} {s : Scene σ} (hs : Within sc k t model outer names s) :
    Within sc k t model outer [] s := ⟨hs.known, by simp⟩

/-- A section that is realized is registered by the name that it was found by. -/
theorem RealizesSection.action_name {locals : List String} {n : Named} {index : Nat}
    (h : RealizesSection sc k t.module index locals) (hfind : sc.sections.findIdx? (·.name.name == n.name) = some index)
    (ls : Locals) : (⟨t, model, index, ls⟩ : Action).name = n.name := by
  obtain ⟨decl, body, hd, hsection, -⟩ := h
  obtain ⟨hlt, heq, -⟩ := List.findIdx?_eq_some_iff_getElem.mp hfind
  rw [List.getElem?_eq_getElem hlt, Option.some.injEq] at hd
  rw [Action.name, Action.section?, hsection, ← beq_iff_eq.mp heq, hd]
  rfl

/-- A statement that registers no section keeps the scene as it is to be, whatever names are yet to be registered. -/
theorem ResolvesStmt.exec_keeps (ht : Running sc k t) {depth : Nat} {locals names : List String} {stmt : Stmt}
    {stmt' : Ir.Stmt} {ss' : List Ir.Stmt} (hstmt : ResolvesStmt sc k locals stmt stmt') (ls : Locals)
    (hl : locals ⊆ ls.names) (hsub : ∀ n s, Reaches ls.names (stmt' :: ss') n s → Reaches [] t.module.body n s) :
    Keeps (Within sc k t model outer names) (t.Excused sc.options.modelType model host outer)
      (fun r => r.1.names = stmt'.binds ++ ls.names)
      ((⟨t, model, host, renderSectionTo host depth⟩ : Machine σ).exec ls stmt') := by
  have hone : ResolvesStmts sc k locals [stmt] [stmt'] := .cons hstmt .nil
  exact Machine.exec_keeps (surrounded ht names depth) ls stmt'
    (hone.admits ht (fun _ => .itself) .body hl fun _ _ h => hsub _ _ h.of_head)

/-- A section that has been registered is one of the template, and its name is not to be registered again. -/
theorem Within.define {n : String} {ns : List String} {a : Action} {context : Context Action} {s : Scene σ}
    (hs : Within sc k t model outer (n :: ns) s) (ha : Carries sc k t model a) (hn : n ∉ ns)
    (hd : s.context.define n a = .ok context) : Within sc k t model outer ns { s with context } := by
  obtain ⟨hholds, htop⟩ := Context.define_ok hd
  refine ⟨fun b hb => ?_, fun m hm ht => ?_⟩
  · rcases hholds b hb with hb | rfl
    · exact hs.known b hb
    · exact .inr ha
  · rcases htop m ht with ht | rfl
    · exact hs.free m (List.mem_cons_of_mem _ hm) ht
    · exact (hn hm).elim

/-- Running the statements of an execute block, none of whose sections is in the top frame yet unless the context
around it claims the name, registers only sections of the template, and fails only in excused ways. -/
theorem ResolvesBody.run (ht : Running sc k t) {depth : Nat} {locals : List String} {ss : List Stmt}
    {ss' : List Ir.Stmt} {regs : List (Nat × List String)} (hr : ResolvesBody sc k locals ss ss' regs)
    (hregs : ∀ r ∈ regs, RealizesSection sc k t.module r.1 r.2) (honce : (registered ss).Nodup)
    (hnamed : ∀ n ∈ registered ss, Text.allBlank n.toList = false) (ls : Locals) (hl : locals ⊆ ls.names)
    (hsub : ∀ n s, Reaches ls.names ss' n s → Reaches [] t.module.body n s) (s : Scene σ)
    (hs : Within sc k t model outer (registered ss) s) :
    let r := (⟨t, model, host, renderSectionTo host depth⟩ : Machine σ).execAll ls ss' s
    Within sc k t model outer [] r.2 ∧ ∀ h, r.1 = .error h → t.Excused sc.options.modelType model host outer h := by
  -- The names that are yet to be registered are those of the statements that are yet to be run.
  induction hr generalizing ls s with
  | nil =>
    refine ⟨hs.forget, ?_⟩
    intro h hh
    cases hh
  | @plain locals stmt stmt' ss ss' regs hstmt _ ih =>
    have hregistered : registered (stmt :: ss) = registered ss := by cases hstmt <;> rfl
    rw [hregistered] at honce hnamed hs
    have hkeeps : Keeps (Within sc k t model outer (registered ss)) (t.Excused sc.options.modelType model host outer)
        (fun r => r.1.names = stmt'.binds ++ ls.names)
        ((⟨t, model, host, renderSectionTo host depth⟩ : Machine σ).exec ls stmt') := hstmt.exec_keeps ht ls hl hsub
    have hkept := hkeeps.kept s hs
    rw [execAll_cons]
    rcases hrun : ((⟨t, model, host, renderSectionTo host depth⟩ : Machine σ).exec ls stmt' s).1 with e | r
    · refine ⟨hkept.forget, ?_⟩
      intro h hh
      cases hh
      exact hkeeps.fails s hs e hrun
    · have hnames := hkeeps.gives s hs r hrun
      have hl' : stmt.binds ++ locals ⊆ r.1.names := by
        intro n hn
        rw [hnames, hstmt.binds_eq]
        rcases List.mem_append.mp hn with hn | hn
        · exact List.mem_append_left _ hn
        · exact List.mem_append_right _ (hl hn)
      obtain ⟨hfresh, hfails⟩ :=
        ih hregs honce hnamed r.1 hl' (fun n s h => hsub n s (.later (hnames ▸ h))) _ hkept
      obtain ⟨hscene, herror⟩ := run_pure
        ((⟨t, model, host, renderSectionTo host depth⟩ : Machine σ).execAll r.1 ss') (r.2 ++ ·)
        ((⟨t, model, host, renderSectionTo host depth⟩ : Machine σ).exec ls stmt' s).2
      exact ⟨hscene ▸ hfresh, fun h hh => hfails h (herror h hh)⟩
  | @register locals n index ss ss' regs hfind _ ih =>
    have hrealizes : RealizesSection sc k t.module index locals := hregs _ List.mem_cons_self
    obtain ⟨hfirst, honce⟩ := List.nodup_cons.mp honce
    have hrun := exec_defineSection (⟨t, model, host, renderSectionTo host depth⟩ : Machine σ) index ls s
    rw [Machine.action, hrealizes.action_name hfind] at hrun
    rw [execAll_cons, hrun]
    -- The name is not blank, so registering fails only if the frame has the name already.
    rcases hd : s.context.define n.name ⟨t, model, index, ls⟩ with c | context
    · refine ⟨hs.forget, ?_⟩
      intro h hh
      cases hh
      rcases Context.define_error hd with ⟨hblank, -⟩ | ⟨htop, rfl⟩
      · rw [hnamed n.name List.mem_cons_self] at hblank
        cases hblank
      · exact .claimed (hs.free _ List.mem_cons_self htop)
    · have hnext : Within sc k t model outer (registered ss) { s with context } :=
        hs.define ⟨rfl, rfl, locals, hrealizes, hl⟩ hfirst hd
      obtain ⟨hfresh, hfails⟩ := ih (fun r hr => hregs r (List.mem_cons_of_mem _ hr)) honce
        (fun m hm => hnamed m (List.mem_cons_of_mem _ hm)) ls hl (fun m s h => hsub m s (.later h)) _ hnext
      obtain ⟨hscene, herror⟩ := run_pure
        ((⟨t, model, host, renderSectionTo host depth⟩ : Machine σ).execAll ls ss') (([] : List Piece) ++ ·)
        { s with context }
      exact ⟨hscene ▸ hfresh, fun h hh => hfails h (herror h hh)⟩

/-- Running the body of a template in a frame of its own registers only sections of the template beside those that
the context around it yields, and fails only in excused ways. -/
theorem Realizes.execute {execute : List Stmt} (hr : Realizes sc k execute t.module) (hdirect : DirectBody execute)
    (ht : Running sc k t) (s : σ) :
    let r := t.execute model host ⟨outer.pushFrame, s⟩
    Within sc k t model outer [] r.2 ∧ ∀ h, r.1 = .error h → t.Excused sc.options.modelType model host outer h := by
  obtain ⟨regs, hbody, hregs⟩ := hr.body
  have hstart : Within sc k t model outer (registered execute) ⟨outer.pushFrame, s⟩ :=
    ⟨fun a ha => .inl (.held ha), fun n _ hn => by cases hn⟩
  obtain ⟨hscene, herror⟩ := run_pure
    ((⟨t, model, host, renderSectionTo host outer.pushFrame.depth⟩ : Machine σ).execAll [] t.module.body)
    (Piece.renderAll t.program.encoding) ⟨outer.pushFrame, s⟩
  obtain ⟨hwithin, hfails⟩ :=
    hbody.run ht hregs hdirect.once hdirect.named [] (List.nil_subset _) (fun _ _ h => h) _ hstart
  rw [CompiledTemplate.execute_run, Machine.output]
  exact ⟨hscene ▸ hwithin, fun h hh => hfails h (herror h hh)⟩

/-! ### Programs of checked units -/

end Unit

end Stencil
