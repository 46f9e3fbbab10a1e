import Stencil.Proofs.Render.Running

/-! Sections that a context holds, and those that rendering them can add.

Only registering adds a section to a context, and only under a name that its top frame does not have. Rendering a
section registers what its code registers, with what the section itself was compiled from. -/

namespace Stencil

open Ir (Stmt)

variable {σ α : Type}

namespace Context

/-- An action is registered in the context. -/
def Holds (c : Context α) (a : α) : Prop := ∃ n es, (n, es) ∈ c.sections ∧ ∃ e ∈ es, e.action = a

/-- The names that the top frame defines. -/
def top (c : Context α) : List String := c.frames.headD []

theorem holds_of_visibleEntry? {c : Context α} {name : String} {e : Entry α} (h : c.visibleEntry? name = some e) :
    c.Holds e.action := by
  have hmem : e ∈ c.entries name := List.mem_of_find?_eq_some h
  unfold entries at hmem
  rcases hfind : c.sections.find? (·.1 == name) with _ | ⟨n, es⟩
  · rw [hfind] at hmem
    cases hmem
  · rw [hfind] at hmem
    exact ⟨n, es, List.mem_of_find?_eq_some hfind, e, hmem, rfl⟩

/-- The entries of a name are those from before, but the new entry comes on top of those of its own name. -/
theorem mem_addEntry {name n : String} {e : Entry α} {es : List (Entry α)} {sections : List (String × List (Entry α))}
    (h : (n, es) ∈ addEntry name e sections) :
    (n, es) ∈ sections ∨ n = name ∧ (es = [e] ∨ ∃ older, (name, older) ∈ sections ∧ es = e :: older) := by
  induction sections with
  | nil =>
    cases List.mem_singleton.mp h
    exact .inr ⟨rfl, .inl rfl⟩
  | cons s rest ih =>
    obtain ⟨m, ds⟩ := s
    rw [addEntry] at h
    split at h
    · rcases List.mem_cons.mp h with h | h
      · cases h
        exact .inr ⟨rfl, .inl rfl⟩
      · exact .inl h
    · split at h
      · rename_i hname
        subst hname
        rcases List.mem_cons.mp h with h | h
        · cases h
          exact .inr ⟨rfl, .inr ⟨ds, List.mem_cons_self, rfl⟩⟩
        · exact .inl (List.mem_cons_of_mem _ h)
      · rcases List.mem_cons.mp h with h | h
        · cases h
          exact .inl List.mem_cons_self
        · rcases ih h with h | ⟨rfl, h | ⟨older, hmem, h⟩⟩
          · exact .inl (List.mem_cons_of_mem _ h)
          · exact .inr ⟨rfl, .inl h⟩
          · exact .inr ⟨rfl, .inr ⟨older, List.mem_cons_of_mem _ hmem, h⟩⟩

theorem define_eq {c c' : Context α} {name : String} {a : α} (h : c.define name a = .ok c') : c' = { c with
    frames := Text.insertSorted name (c.frames.headD []) :: c.frames.tail
    sections := addEntry name ⟨c.depth - 1, a⟩ c.sections } := by
  unfold define at h
  split at h
  · cases h
  · dsimp only at h
    split at h
    · cases h
    · exact (Except.ok.inj h).symm

/-- Defining a section adds its action and its name, and nothing else. -/
theorem define_ok {c c' : Context α} {name : String} {a : α} (h : c.define name a = .ok c') :
    (∀ b, c'.Holds b → c.Holds b ∨ b = a) ∧ ∀ n, n ∈ c'.top → n ∈ c.top ∨ n = name := by
  obtain rfl := define_eq h
  refine ⟨?_, fun n hn => (Text.mem_insertSorted.mp hn).symm⟩
  rintro b ⟨n, es, hmem, d, hd, rfl⟩
  rcases mem_addEntry hmem with hold | ⟨-, rfl | ⟨older, hold, rfl⟩⟩
  · exact .inl ⟨n, es, hold, d, hd, rfl⟩
  · exact .inr (congrArg Entry.action (List.mem_singleton.mp hd))
  · rcases List.mem_cons.mp hd with rfl | hd
    · exact .inr rfl
    · exact .inl ⟨name, older, hold, d, hd, rfl⟩

/-- Defining a section fails without a name, or if the top frame has the name. -/
theorem define_error {c : Context α} {name : String} {a : α} {cause : ExecutionCause}
    (h : c.define name a = .error cause) :
    Text.allBlank name.toList = true ∧ cause = .invalidSectionName ∨ name ∈ c.top ∧ cause = .duplicateSection name := by
  unfold define at h
  split at h
  · rename_i hblank
    cases h
    exact .inl ⟨hblank, rfl⟩
  · dsimp only at h
    split at h
    · rename_i hmem
      cases h
      exact .inr ⟨List.contains_iff_mem.mp hmem, rfl⟩
    · cases h

end Context

/-! ### What sections register -/

/-- The section registers the other one: its code comes to registering it. -/
structure Action.Registers (b a : Action) : Prop where
  reached : ∃ s, b.section? = some s ∧ Reaches b.locals.names s.body a.locals.names (.defineSection a.index)
  compiled : a.compiled = b.compiled
  model : a.model = b.model

/-- A section can come from a context: it is registered there, or such a section registers it. -/
inductive Context.Yields (c : Context Action) : Action → Prop
  | held {a : Action} (h : c.Holds a) : Yields c a
  | registered {a b : Action} (hb : Yields c b) (h : b.Registers a) : Yields c a

/-- Rendering sections of a context can register a section with a name. -/
def Context.Claims (c : Context Action) (name : String) : Prop := ∃ b a, c.Yields b ∧ b.Registers a ∧ a.name = name

/-- The code of a section can fail with a failure. -/
inductive Action.MayFail (a : Action) : Halt → Prop
  | slot (h : a.section? = none) : MayFail a (.error (.ofCause a.compiled.template (.invalidBinary (.sectionSlot a.index))))
  | raises {s : Ir.Section} {f : Fault} {h : Halt} (hs : a.section? = some s)
      (hf : a.compiled.program.Raises (a.compiled.program.Fails a.model) a.locals.names s.body f)
      (hp : Placed a.compiled.template f h) : MayFail a h
  | duplicate {b : Action} (hb : a.Registers b) :
      MayFail a (.error (.ofCause a.compiled.template (.duplicateSection b.name)))
  | unnamed {b : Action} (hb : a.Registers b) : MayFail a (.error (.ofCause a.compiled.template .invalidSectionName))

/-! ### Scenes -/

/-- The sections of a scene are known ones, and its top frame has only those of some names that others claim. -/
structure Scene.Fresh (known : Action → Prop) (claimed : String → Prop) (names : List String) (s : Scene σ) : Prop where
  known : ∀ a, s.context.Holds a → known a
  free : ∀ n ∈ names, n ∈ s.context.top → claimed n

variable {known : Action → Prop} {claimed : String → Prop} {names : List String} {E : Halt → Prop}

theorem partial_keeps {host : Host σ} {E : Halt → Prop}
    (hE : ∀ key modelType v s h, (host.embed key modelType v s).1 = .error h → E h) (key : String)
    (modelType : ModelType) (v : Json) :
    Keeps (Scene.Fresh known claimed names) E (fun _ => True) (host.partial key modelType v) where
  kept _ hs := ⟨hs.known, hs.free⟩
  gives _ _ _ _ := trivial
  fails s _ h hh := hE key modelType v s.host h hh

theorem renderVisible_some {name : String} (render : Action → Execution σ α) {s : Scene σ} {e : Entry Action}
    (h : s.context.visibleEntry? name = some e) :
    let r := render e.action ⟨s.context.hide e.frame, s.host⟩
    renderVisible name render s =
      (r.1.map some, ⟨Context.restoreCeilings s.context r.2.context, r.2.host⟩) := by
  simp only [renderVisible, Context.renderSection, h]
  rfl

theorem renderVisible_none {name : String} (render : Action → Execution σ α) {s : Scene σ}
    (h : s.context.visibleEntry? name = none) : renderVisible name render s = (.ok none, s) := by
  simp only [renderVisible, Context.renderSection, h]

/-- Rendering the visible section of a name keeps an invariant that rendering it under its ceiling keeps in a form from
which it comes back with the ceilings. -/
theorem renderVisible_keeps {I : Scene σ → Prop} {name : String} {render : Action → Execution σ α}
    (h : ∀ s, I s → ∀ e, s.context.visibleEntry? name = some e → ∃ J : Scene σ → Prop,
      J ⟨s.context.hide e.frame, s.host⟩ ∧ Keeps J E (fun _ => True) (render e.action) ∧
      ∀ after, J after → I ⟨Context.restoreCeilings s.context after.context, after.host⟩) :
    Keeps I E (fun _ => True) (renderVisible name render) := by
  refine .of_run fun s hs => ?_
  cases hentry : s.context.visibleEntry? name with
  | none =>
    rw [renderVisible_none render hentry]
    exact ⟨hs, trivial⟩
  | some e =>
    obtain ⟨J, hhide, hrender, hrestore⟩ := h s hs e hentry
    rw [renderVisible_some render hentry]
    refine ⟨hrestore _ (hrender.kept _ hhide), ?_⟩
    cases hout : (render e.action ⟨s.context.hide e.frame, s.host⟩).1 with
    | ok => exact trivial
    | error x => exact hrender.fails _ hhide x hout

/-- Rendering the visible section of a name keeps what rendering the known sections keeps. -/
theorem renderVisible_fresh {name : String} {render : Action → Execution σ α}
    (h : ∀ a, known a → Keeps (Scene.Fresh known claimed names) E (fun _ => True) (render a)) :
    Keeps (Scene.Fresh known claimed names) E (fun _ => True) (renderVisible name render) :=
  renderVisible_keeps fun _ hs _ he => ⟨Scene.Fresh known claimed names, ⟨hs.known, hs.free⟩,
    h _ (hs.known _ (Context.holds_of_visibleEntry? he)), fun _ hafter => ⟨hafter.known, hafter.free⟩⟩

/-- The section that code of a template registers. -/
def Machine.action (m : Machine σ) (index : Nat) (locals : Locals) : Action := ⟨m.compiled, m.model, index, locals⟩

theorem register_eq (m : Machine σ) (index : Nat) (locals : Locals) (s : Scene σ) :
    m.register index locals s = match s.context.define (m.action index locals).name (m.action index locals) with
      | .ok context => (.ok (), { s with context })
      | .error c => (.error (.error (.ofCause m.compiled.template c)), s) := by
  change (match s.context.define (m.action index locals).name (m.action index locals) with
    | .ok context => _
    | .error c => _ : Execution σ Unit) s = _
  cases s.context.define (m.action index locals).name (m.action index locals) <;> rfl

theorem exec_defineSection (m : Machine σ) (index : Nat) (locals : Locals) (s : Scene σ) :
    m.exec locals (.defineSection index) s =
      match s.context.define (m.action index locals).name (m.action index locals) with
      | .ok context => (.ok (locals, []), { s with context })
      | .error c => (.error (.error (.ofCause m.compiled.template c)), s) := by
  rw [Machine.exec, bind_run, register_eq]
  cases s.context.define (m.action index locals).name (m.action index locals) <;> rfl

/-- Registering a section keeps an invariant that defining it keeps, and fails only as defining it does. -/
theorem register_keeps {I : Scene σ → Prop} {m : Machine σ} {index : Nat} {locals : Locals}
    (hdefine : ∀ s c, I s → s.context.define (m.action index locals).name (m.action index locals) = .ok c →
      I { s with context := c })
    (hfails : ∀ s c, I s → s.context.define (m.action index locals).name (m.action index locals) = .error c →
      E (.error (.ofCause m.compiled.template c))) : Keeps I E (fun _ => True) (m.register index locals) := by
  refine .of_run fun s hs => ?_
  rw [register_eq]
  cases hd : s.context.define (m.action index locals).name (m.action index locals) with
  | error c => exact ⟨hs, hfails s c hs hd⟩
  | ok c => exact ⟨hdefine s c hs hd, trivial⟩

/-- Registering a known section keeps a scene fresh if others claim its name. -/
theorem register_fresh {m : Machine σ} {index : Nat} {locals : Locals} (hknown : known (m.action index locals))
    (hname : claimed (m.action index locals).name)
    (hblank : E (.error (.ofCause m.compiled.template .invalidSectionName)))
    (htaken : E (.error (.ofCause m.compiled.template (.duplicateSection (m.action index locals).name)))) :
    Keeps (Scene.Fresh known claimed names) E (fun _ => True) (m.register index locals) := by
  refine register_keeps (fun s c hs hd => ?_) fun s c hs hd => ?_
  · obtain ⟨hholds, htop⟩ := Context.define_ok hd
    refine ⟨fun b hb => ?_, fun n hn ht => ?_⟩
    · rcases hholds b hb with hb | rfl
      · exact hs.known b hb
      · exact hknown
    · rcases htop n ht with ht | rfl
      · exact hs.free n hn ht
      · exact hname
  · rcases Context.define_error hd with ⟨-, rfl⟩ | ⟨-, rfl⟩
    · exact hblank
    · exact htaken

end Stencil
