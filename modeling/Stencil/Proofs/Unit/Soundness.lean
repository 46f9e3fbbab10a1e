import Stencil.Proofs.Unit.Resolution

/-! Each step of lowering is sound.

A step only adds problems and imports, and the imports it adds are helpers of the references. If none of the
problems found up to its end is an error, what the step gives stands for what the unit says. -/

namespace Stencil.Unit

/-! ### Findings -/

/-- A reference has the helper of an import. -/
def Provided (references : List Reference) (i : Ir.Import) : Prop :=
  ∃ r ∈ references, r.space = i.space ∧ (r.helper? i.name).isSome

namespace Findings

/-- None of the problems found so far is an error. -/
def Clean (s : Findings) : Prop := ∀ p ∈ s.problems, p.2.isError = false

/-- What is found later: more problems, and more imports that the references provide. -/
structure Extends (references : List Reference) (s s' : Findings) : Prop where
  problems : s.problems <+: s'.problems
  imports : s.imports <+: s'.imports
  provided : (∀ i ∈ s.imports, Provided references i) → ∀ i ∈ s'.imports, Provided references i
  sections : s'.sections.length = s.sections.length

variable {references : List Reference} {s s' s'' : Findings}

theorem Extends.refl (references : List Reference) (s : Findings) : Extends references s s :=
  ⟨List.prefix_refl _, List.prefix_refl _, id, rfl⟩

theorem Extends.trans (h : Extends references s s') (h' : Extends references s' s'') : Extends references s s'' where
  problems := h.problems.trans h'.problems
  imports := h.imports.trans h'.imports
  provided hi := h'.provided (h.provided hi)
  sections := h'.sections.trans h.sections

theorem Extends.clean (h : Extends references s s') (hc : s'.Clean) : s.Clean :=
  fun p hp => hc p (h.problems.subset hp)

end Findings

/-! ### Sound steps -/

/-- What holds for some imports holds for more of them. -/
def Lasting (P : List Ir.Import → α → Prop) : Prop := ∀ is is' a, is <+: is' → P is a → P is' a

/-- A step that changes no section, extends the findings, and gives what it should if there is no error. -/
def Sound (sc : Scope) (x : Lower α) (P : List Ir.Import → α → Prop) : Prop :=
  ∀ s a s', x s = some (a, s') →
    s.Extends sc.references s' ∧ s'.sections = s.sections ∧ (s'.Clean → P s'.imports a)

namespace Sound

variable {sc : Scope} {P : List Ir.Import → α → Prop} {Q : List Ir.Import → β → Prop}

theorem pure {a : α} (h : ∀ is, P is a) : Sound sc (Pure.pure a : Lower α) P := by
  intro s b s' hs
  cases hs
  exact ⟨.refl _ _, rfl, fun _ => h _⟩

theorem bind {x : Lower α} {f : α → Lower β} (hx : Sound sc x P) (hP : Lasting P)
    (hf : ∀ a, Sound sc (f a) fun is b => P is a → Q is b) : Sound sc (x >>= f) Q := by
  intro s b s'' hs
  rcases hxs : x s with _ | ⟨a, s'⟩
  · rw [show (x >>= f) s = (x s).bind fun r => f r.1 r.2 from rfl, hxs] at hs
    cases hs
  · rw [show (x >>= f) s = (x s).bind fun r => f r.1 r.2 from rfl, hxs] at hs
    obtain ⟨he, hsec, hp⟩ := hx s a s' hxs
    obtain ⟨he', hsec', hq⟩ := hf a s' b s'' hs
    refine ⟨he.trans he', hsec'.trans hsec, fun hc => hq hc ?_⟩
    exact hP _ _ _ he'.imports (hp (he'.clean hc))

theorem mono {x : Lower α} {Q : List Ir.Import → α → Prop} (hx : Sound sc x P) (h : ∀ is a, P is a → Q is a) :
    Sound sc x Q := by
  intro s a s' hs
  obtain ⟨he, hsec, hp⟩ := hx s a s' hs
  exact ⟨he, hsec, fun hc => h _ _ (hp hc)⟩

theorem map {x : Lower α} (hx : Sound sc x P) {f : α → β} (h : ∀ is a, P is a → Q is (f a)) : Sound sc (f <$> x) Q := by
  intro s b s' hs
  rw [show (f <$> x) s = (x s).bind fun r => some (f r.1, r.2) from rfl] at hs
  rcases hxs : x s with _ | ⟨a, s₁⟩
  · rw [hxs] at hs
    cases hs
  · rw [hxs] at hs
    cases hs
    obtain ⟨he, hsec, hp⟩ := hx s a s₁ hxs
    exact ⟨he, hsec, fun hc => h _ _ (hp hc)⟩

theorem lift_pure {a : α} (h : ∀ is, P is a) : Sound sc (Resolve.lift (Pure.pure a)) P := pure h

theorem lift_bind {x : Resolve α} {f : α → Resolve β} (hx : Sound sc x.lift P) (hP : Lasting P)
    (hf : ∀ a, Sound sc (f a).lift fun is b => P is a → Q is b) : Sound sc (x >>= f).lift Q :=
  bind hx hP hf

/-- After an error nothing has to hold. -/
theorem report {pos : SourcePos} {p : Problem} (hp : p.isError = true) {P : List Ir.Import → PUnit → Prop} :
    Sound sc (Unit.report pos p).lift P := by
  intro s a s' hs
  cases hs
  refine ⟨⟨List.prefix_append _ _, List.prefix_refl _, id, rfl⟩, rfl, fun hc => ?_⟩
  have hmem := hc (pos, p) (List.mem_append_right _ (List.mem_singleton_self _))
  rw [hp] at hmem
  cases hmem

end Sound

/-! ### Calls -/

/-- The linkage of a module with its imports, before it is written. -/
def Linkage.ofImports (is : List Ir.Import) : Linkage where
  value v w := w = v
  slot index r name _ := is[index]? = some ⟨r.space, name⟩

theorem Linkage.ofImports_mono (sc : Scope) {is is' : List Ir.Import} (h : is <+: is') :
    (ofImports is).Le sc (ofImports is') where
  value hv := hv
  slot := by
    intro _ _ slot r name _ _ hs
    obtain ⟨more, rfl⟩ := h
    obtain ⟨hlt, -⟩ := List.getElem?_eq_some_iff.mp hs
    simp only [ofImports] at hs ⊢
    rw [List.getElem?_append_left hlt, hs]

variable {sc : Scope}

theorem sound_checkArity (name : String) (pos : SourcePos) (min max count : Nat) :
    Sound sc (checkArity name pos min max count).lift fun _ ok => ok = true ∧ min ≤ count ∧ count ≤ max := by
  unfold checkArity
  split
  · rename_i h
    exact Sound.lift_pure fun _ => ⟨rfl, h⟩
  · refine Sound.lift_bind (P := fun _ _ => False) (Sound.report rfl) (fun _ _ _ _ h => h) fun _ => ?_
    exact Sound.lift_pure fun _ h => h.elim

/-- An import has its slot. -/
theorem importSlot_eq (i : Ir.Import) (s : Findings) :
    importSlot i s =
      (s.imports.findIdx? (· == i)).elim (s.imports.length, { s with imports := s.imports ++ [i] }) (·, s) := by
  simp only [importSlot, bind, StateT.bind, get, getThe, MonadStateOf.get, StateT.get, pure]
  cases s.imports.findIdx? (· == i) <;> rfl

theorem sound_importSlot {i : Ir.Import} (hi : Provided sc.references i) :
    Sound sc (importSlot i).lift fun is slot => is[slot]? = some i := by
  intro s slot s' hs
  rw [show (importSlot i).lift s = some (importSlot i s) from rfl, Option.some.injEq, importSlot_eq] at hs
  rcases hfound : s.imports.findIdx? (· == i) with _ | found
  · rw [hfound] at hs
    cases hs
    refine ⟨⟨List.prefix_refl _, List.prefix_append _ _, ?_, rfl⟩, rfl, fun _ => by simp⟩
    intro hp j hj
    rcases List.mem_append.mp hj with hj | hj
    · exact hp j hj
    · rw [List.mem_singleton.mp hj]
      exact hi
  · rw [hfound] at hs
    cases hs
    refine ⟨.refl _ _, rfl, fun _ => ?_⟩
    obtain ⟨hlt, heq, -⟩ := List.findIdx?_eq_some_iff_getElem.mp hfound
    rw [List.getElem?_eq_getElem hlt, beq_iff_eq.mp heq]

/-- What a resolved call goes to. -/
def CalleeOf (sc : Scope) (locals : List String) (target : Expr) (count : Nat) (is : List Ir.Import)
    (c : Option Ir.Callee) : Prop :=
  ∃ callee, c = some callee ∧ ResolvesCallee sc (.ofImports is) locals count target callee

theorem sound_bindHelper {locals : List String} {target : Expr} {r : Reference} {name : String} {h : Helper}
    (hp : Picks sc locals target r name h) (hr : r ∈ sc.references) (hh : r.helper? name = some h)
    (pos : SourcePos) (count : Nat) :
    Sound sc (bindHelper r h name pos count).lift (CalleeOf sc locals target count) := by
  unfold bindHelper
  split
  · rename_i hc
    have hi : Provided sc.references ⟨r.space, name⟩ := ⟨r, hr, rfl, by rw [hh]; rfl⟩
    refine Sound.lift_bind (sound_importSlot hi) ?_ fun slot => ?_
    · rintro is _ slot ⟨more, rfl⟩ hs
      obtain ⟨hlt, -⟩ := List.getElem?_eq_some_iff.mp hs
      rw [List.getElem?_append_left hlt, hs]
    · exact Sound.lift_pure fun is hs => ⟨_, rfl, .helper hp hs hc⟩
  · refine Sound.lift_bind (P := fun _ _ => False) (Sound.report rfl) (fun _ _ _ _ h => h) fun _ => ?_
    exact Sound.lift_pure fun _ h => h.elim

/-- A reported error ends a resolution soundly. -/
theorem sound_refuse {pos : SourcePos} {p : Problem} (hp : p.isError = true) {P : List Ir.Import → Option α → Prop} :
    Sound sc (do Unit.report pos p; return none : Resolve (Option α)).lift P := by
  refine Sound.lift_bind (P := fun _ _ => False) (Sound.report hp) (fun _ _ _ _ h => h) fun _ => ?_
  exact Sound.lift_pure fun _ h => h.elim

/-- A change of the findings that keeps problems, imports and sections. -/
theorem sound_modify {f : Findings → Findings} (hp : ∀ s, (f s).problems = s.problems)
    (hi : ∀ s, (f s).imports = s.imports) (hs : ∀ s, (f s).sections = s.sections) :
    Sound sc (modify f : Resolve PUnit).lift fun _ _ => True := by
  intro s a s' h
  cases h
  refine ⟨⟨?_, ?_, ?_, ?_⟩, hs s, fun _ => trivial⟩
  · exact (hp s).symm ▸ List.prefix_refl _
  · exact (hi s).symm ▸ List.prefix_refl _
  · rw [hi s]
    exact id
  · rw [hs s]

/-- A call whose number of arguments has been checked. -/
theorem sound_arity {locals : List String} {target : Expr} {count : Nat} (name : String) (pos : SourcePos)
    {min max : Nat} {callee : Ir.Callee}
    (h : min ≤ count → count ≤ max → ∀ k, ResolvesCallee sc k locals count target callee) :
    Sound sc (do return if ← checkArity name pos min max count then some callee else none :
      Resolve (Option Ir.Callee)).lift (CalleeOf sc locals target count) := by
  refine Sound.lift_bind (sound_checkArity name pos min max count) (fun _ _ _ _ h => h) fun ok => ?_
  refine Sound.lift_pure ?_
  rintro is ⟨rfl, hmin, hmax⟩
  exact ⟨callee, rfl, h hmin hmax _⟩

theorem mem_of_candidates {n : String} {r : Reference} {h : Helper} (hc : (r, h) ∈ sc.candidates n) :
    r ∈ sc.references ∧ r.helper? n = some h := by
  obtain ⟨r', hr, hsome⟩ := List.mem_filterMap.mp hc
  split at hsome
  · rw [Option.map_eq_some_iff] at hsome
    obtain ⟨h', hh, heq⟩ := hsome
    cases heq
    exact ⟨hr, hh⟩
  · cases hsome

/-- A called name that is no local goes to what it stands for. -/
theorem sound_resolveName {locals : List String} {n : String} (hl : n ∉ locals) (pos p : SourcePos) (count : Nat) :
    Sound sc (resolveName sc n p count).lift (CalleeOf sc locals (.name n pos) count) := by
  unfold resolveName
  split
  · rename_i index hf
    have hlt : index < sc.functions.length := (List.findIdx?_eq_some_iff_getElem.mp hf).1
    have hd : sc.functions[index]? = some sc.functions[index] := List.getElem?_eq_getElem hlt
    refine Sound.lift_bind (sound_modify (fun _ => rfl) (fun _ => rfl) fun _ => rfl) (fun _ _ _ _ h => h) fun _ => ?_
    refine Sound.mono (sound_arity n p fun hmin hmax k => .function hl hf hd ?_) fun _ _ h _ => h
    rw [hd] at hmin hmax
    exact Nat.le_antisymm hmin hmax
  · rename_i hf
    split
    · rename_i b hb
      exact sound_arity n p fun hmin hmax k => .builtin hl hf hb ⟨hmin, hmax⟩
    · rename_i hb
      split
      · exact sound_refuse rfl
      · rename_i r h hc
        have hmem : (r, h) ∈ sc.candidates n := hc ▸ List.mem_singleton_self _
        obtain ⟨hr, hh⟩ := mem_of_candidates hmem
        exact sound_bindHelper (.name hl hf hb hc) hr hh p count
      · exact sound_refuse rfl

/-- A called path goes to the helper that it names. -/
theorem sound_resolvePath {locals : List String} {target : Expr} {n : Named} {path : List String}
    (hp : (Expr.member target n).path? = some path) (pos : SourcePos) (count : Nat) :
    Sound sc (resolvePath sc path pos count).lift (CalleeOf sc locals (.member target n) count) := by
  unfold resolvePath
  dsimp only
  split
  · rename_i r hr
    split
    · rename_i h hh
      exact sound_bindHelper (.path hp hr hh) (List.mem_of_find?_eq_some hr) hh pos count
    · exact sound_refuse rfl
  · refine sound_refuse ?_
    simp only [Problem.isError, Problem.severity]
    rfl

theorem sound_resolveCallee (locals : List String) (target : Expr) (count : Nat) :
    Sound sc (resolveCallee sc locals target count).lift (CalleeOf sc locals target count) := by
  unfold resolveCallee
  split
  · rename_i n pos
    split
    · exact sound_refuse rfl
    · rename_i hl
      exact sound_resolveName (by simpa using hl) pos pos count
  · split
    · rename_i path hp
      exact sound_resolvePath hp _ count
    · exact sound_refuse rfl
  · exact sound_refuse rfl

/-! ### Expressions -/

theorem lasting_resolves {locals : List String} {e : Expr} :
    Lasting fun is e' => Resolves sc (.ofImports is) locals e e' :=
  fun _ _ _ hp h => h.mono (Linkage.ofImports_mono sc hp)

theorem lasting_resolvesAll {locals : List String} {es : List Expr} :
    Lasting fun is es' => ResolvesAll sc (.ofImports is) locals es es' :=
  fun _ _ _ hp h => h.mono (Linkage.ofImports_mono sc hp)

theorem lasting_calleeOf {locals : List String} {target : Expr} {count : Nat} :
    Lasting (CalleeOf sc locals target count) := by
  rintro _ _ _ hp ⟨callee, rfl, h⟩
  exact ⟨callee, rfl, h.mono (Linkage.ofImports_mono sc hp)⟩

theorem sound_checkModelMember (n : Named) :
    Sound sc (checkModelMember sc n).lift fun _ _ => sc.options.modelType.accepts n.name = true := by
  unfold checkModelMember
  split
  · exact Sound.report rfl
  · rename_i h
    exact Sound.lift_pure fun _ => by simpa using h

mutual

/-- Lowering an expression is sound. -/
theorem sound_lowerExpr (locals : List String) : (e : Expr) →
    Sound sc (lowerExpr sc locals e).lift fun is e' => Resolves sc (.ofImports is) locals e e'
  | .literal v pos => by
    rw [lowerExpr]
    exact Sound.lift_pure fun _ => .literal rfl
  | .name n pos => by
    rw [lowerExpr]
    split
    · rename_i h
      exact Sound.lift_pure fun _ => .var (by simpa using h)
    · rename_i h
      split
      · rename_i hn
        obtain rfl := beq_iff_eq.mp hn
        exact Sound.lift_pure fun _ => .model (by simpa using h)
      · refine Sound.lift_bind (P := fun _ _ => False) (Sound.report rfl) (fun _ _ _ _ h => h) fun _ => ?_
        exact Sound.lift_pure fun _ h => h.elim
  | .member target n => by
    -- Whether the member is checked depends on whether its target is the model.
    have htail : Sound sc (do return .member (← lowerExpr sc locals target) n.name : Resolve Ir.Expr).lift
        fun is e' => (target.isModel locals = true → sc.options.modelType.accepts n.name = true) →
          Resolves sc (.ofImports is) locals (.member target n) e' := by
      refine Sound.lift_bind (sound_lowerExpr locals target) lasting_resolves fun t => ?_
      exact Sound.lift_pure fun _ ht hm => .member ht hm
    rw [lowerExpr]
    split
    · refine Sound.lift_bind (sound_checkModelMember n) (fun _ _ _ _ h => h) fun _ => ?_
      exact htail.mono fun _ _ h hm => h fun _ => hm
    · rename_i hmodel
      exact htail.mono fun _ _ h => h fun hm => absurd hm hmodel
  | .call target args => by
    rw [lowerExpr]
    refine Sound.lift_bind (sound_resolveCallee locals target args.length) lasting_calleeOf fun callee => ?_
    refine Sound.lift_bind (sound_lowerExprs locals args) lasting_resolvesAll fun as => ?_
    refine Sound.lift_pure ?_
    rintro is ha ⟨callee, rfl, hc⟩
    exact .call hc ha
  | .not operand pos => by
    rw [lowerExpr]
    refine Sound.lift_bind (sound_lowerExpr locals operand) lasting_resolves fun o => ?_
    exact Sound.lift_pure fun _ ho => .not ho
  | .binary op lhs rhs => by
    rw [lowerExpr]
    refine Sound.lift_bind (sound_lowerExpr locals lhs) lasting_resolves fun l => ?_
    refine Sound.lift_bind (sound_lowerExpr locals rhs) lasting_resolves fun r => ?_
    exact Sound.lift_pure fun _ hr hl => .binary hl hr

theorem sound_lowerExprs (locals : List String) : (es : List Expr) →
    Sound sc (lowerExprs sc locals es).lift fun is es' => ResolvesAll sc (.ofImports is) locals es es'
  | [] => Sound.lift_pure fun _ => .nil
  | e :: es => by
    rw [lowerExprs]
    refine Sound.lift_bind (sound_lowerExpr locals e) lasting_resolves fun e' => ?_
    refine Sound.lift_bind (sound_lowerExprs locals es) lasting_resolvesAll fun es' => ?_
    exact Sound.lift_pure fun _ hs he => .cons he hs

end

/-! ### Statements that register no section -/

mutual

/-- A statement registers a section, itself or in a block. -/
def Stmt.registers : Stmt → Bool
  | .defineSection _ => true
  | .ifElse branches otherwise _ => registersBranches branches || registersBlock otherwise
  | .forEach _ _ body _ => registersAll body
  | .write _ | .emit .. | .var .. => false

/-- A branch registers a section. -/
def registersBranches : List Branch → Bool
  | [] => false
  | .mk _ body :: rest => registersAll body || registersBranches rest

/-- A block that may be missing registers a section. -/
def registersBlock : Option (List Stmt) → Bool
  | none => false
  | some body => registersAll body

/-- One of the statements registers a section. -/
def registersAll : List Stmt → Bool
  | [] => false
  | s :: ss => s.registers || registersAll ss

end

theorem lasting_resolvesStmts {locals : List String} {ss : List Stmt} :
    Lasting fun is ss' => ResolvesStmts sc (.ofImports is) locals ss ss' :=
  fun _ _ _ hp h => h.mono (Linkage.ofImports_mono sc hp)

/-- What a lowered statement stands for. -/
def StmtOf (sc : Scope) (locals : List String) (s : Stmt) (is : List Ir.Import) (s' : Option Ir.Stmt) : Prop :=
  ∃ i, s' = some i ∧ ResolvesStmt sc (.ofImports is) locals s i

theorem lasting_stmtOf {locals : List String} {s : Stmt} : Lasting (StmtOf sc locals s) := by
  rintro _ _ _ hp ⟨i, rfl, h⟩
  exact ⟨i, rfl, h.mono (Linkage.ofImports_mono sc hp)⟩

variable {lowerSection : SectionLowering}

theorem lowerStmts_cons (locals : List String) (s : Stmt) (ss : List Stmt) :
    lowerStmts sc lowerSection locals (s :: ss) = (do
      let lowered ← lowerStmt sc lowerSection locals s
      return lowered.toList ++ (← lowerStmts sc lowerSection (s.binds ++ locals) ss)) := by
  cases s <;> rw [lowerStmts] <;> first | rfl | (intros; contradiction)

mutual

/-- Lowering a statement that registers no section is sound. -/
theorem sound_lowerStmt (locals : List String) : (s : Stmt) → s.registers = false →
    Sound sc (lowerStmt sc lowerSection locals s) (StmtOf sc locals s)
  | .write text, _ => by
    rw [lowerStmt]
    exact Sound.pure fun _ => ⟨_, rfl, .write text⟩
  | .emit e pos, _ => by
    rw [lowerStmt]
    refine Sound.bind (sound_lowerExpr locals e) lasting_resolves fun e' => ?_
    exact Sound.pure fun _ he => ⟨_, rfl, .emit he⟩
  | .var n e pos, _ => by
    rw [lowerStmt]
    refine Sound.bind (sound_lowerExpr locals e) lasting_resolves fun e' => ?_
    exact Sound.pure fun _ he => ⟨_, rfl, .var he⟩
  | .ifElse branches otherwise pos, h => by
    rw [Stmt.registers, Bool.or_eq_false_iff] at h
    rw [lowerStmt]
    refine Sound.bind (sound_lowerBranches locals branches h.1)
      (fun _ _ _ hp h => h.mono (Linkage.ofImports_mono sc hp)) fun bs => ?_
    match otherwise, h.2 with
    | none, _ => exact Sound.pure fun _ hb => ⟨_, rfl, .ifElse hb .none⟩
    | some body, hbody =>
      rw [registersBlock] at hbody
      have hblock : Sound sc (some <$> lowerStmts sc lowerSection locals body)
          fun is body' => ResolvesBlock sc (.ofImports is) locals (some body) body' :=
        Sound.map (sound_lowerStmts locals body hbody) fun _ _ hs => .some hs
      refine Sound.bind hblock (fun _ _ _ hp h => h.mono (Linkage.ofImports_mono sc hp)) fun body' => ?_
      exact Sound.pure fun _ ho hb => ⟨_, rfl, .ifElse hb ho⟩
  | .forEach n source body pos, h => by
    rw [Stmt.registers] at h
    rw [lowerStmt]
    refine Sound.bind (sound_lowerExpr locals source) lasting_resolves fun e' => ?_
    refine Sound.bind (sound_lowerStmts (n.name :: locals) body h) lasting_resolvesStmts fun ss => ?_
    exact Sound.pure fun _ hb he => ⟨_, rfl, .forEach he hb⟩

theorem sound_lowerBranches (locals : List String) : (branches : List Branch) → registersBranches branches = false →
    Sound sc (lowerBranches sc lowerSection locals branches)
      fun is bs => ResolvesBranches sc (.ofImports is) locals branches bs
  | [], _ => by
    rw [lowerBranches]
    exact Sound.pure fun _ => .nil
  | .mk cond body :: rest, h => by
    rw [registersBranches, Bool.or_eq_false_iff] at h
    rw [lowerBranches]
    refine Sound.bind (sound_lowerExpr locals cond) lasting_resolves fun cond' => ?_
    refine Sound.bind (sound_lowerStmts locals body h.1) lasting_resolvesStmts fun ss => ?_
    refine Sound.bind (sound_lowerBranches locals rest h.2)
      (fun _ _ _ hp h => h.mono (Linkage.ofImports_mono sc hp)) fun bs => ?_
    exact Sound.pure fun _ hs hb hc => .cons hc hb hs

/-- Lowering statements that register no section is sound. -/
theorem sound_lowerStmts (locals : List String) : (ss : List Stmt) → registersAll ss = false →
    Sound sc (lowerStmts sc lowerSection locals ss) fun is ss' => ResolvesStmts sc (.ofImports is) locals ss ss'
  | [], _ => by
    rw [lowerStmts]
    exact Sound.pure fun _ => .nil
  | s :: ss, h => by
    rw [registersAll, Bool.or_eq_false_iff] at h
    rw [lowerStmts_cons]
    refine Sound.bind (sound_lowerStmt locals s h.1) lasting_stmtOf fun s' => ?_
    refine Sound.bind (sound_lowerStmts (s.binds ++ locals) ss h.2) lasting_resolvesStmts fun ss' => ?_
    refine Sound.pure ?_
    rintro is hr ⟨i, rfl, hs⟩
    exact .cons hs hr

end

/-! ### All statements -/

/-- A step that extends the findings. -/
def Grows (sc : Scope) (x : Lower α) : Prop := ∀ s a s', x s = some (a, s') → s.Extends sc.references s'

theorem Sound.grows {x : Lower α} {P : List Ir.Import → α → Prop} (h : Sound sc x P) : Grows sc x :=
  fun s a s' hs => (h s a s' hs).1

namespace Grows

theorem pure (a : α) : Grows sc (Pure.pure a : Lower α) := (Sound.pure (P := fun _ _ => True) fun _ => trivial).grows

theorem bind {x : Lower α} {f : α → Lower β} (hx : Grows sc x) (hf : ∀ a, Grows sc (f a)) :
    Grows sc (x >>= f) := by
  intro s b s'' hs
  rw [show (x >>= f) s = (x s).bind fun r => f r.1 r.2 from rfl] at hs
  rcases hxs : x s with _ | ⟨a, s'⟩
  · rw [hxs] at hs
    cases hs
  · rw [hxs] at hs
    exact (hx s a s' hxs).trans (hf a s' b s'' hs)

theorem map {x : Lower α} (hx : Grows sc x) (f : α → β) : Grows sc (f <$> x) := by
  rw [← bind_pure_comp]
  exact bind hx fun a => pure (f a)

end Grows

mutual

/-- Lowering a statement only adds problems and imports if lowering the sections that it registers does. -/
theorem grows_lowerStmt (hsec : ∀ index locals, Grows sc (lowerSection index locals)) (locals : List String) :
    (s : Stmt) → Grows sc (lowerStmt sc lowerSection locals s)
  | .write text => by
    rw [lowerStmt]
    exact .pure _
  | .emit e pos | .var n e pos => by
    rw [lowerStmt]
    exact .bind (sound_lowerExpr locals e).grows fun _ => .pure _
  | .ifElse branches otherwise pos => by
    rw [lowerStmt]
    refine .bind (grows_lowerBranches hsec locals branches) fun _ => ?_
    match otherwise with
    | none => exact .pure _
    | some body => exact .bind (.map (grows_lowerStmts hsec locals body) _) fun _ => .pure _
  | .forEach n source body pos => by
    rw [lowerStmt]
    refine .bind (sound_lowerExpr locals source).grows fun _ => ?_
    exact .bind (grows_lowerStmts hsec (n.name :: locals) body) fun _ => .pure _
  | .defineSection n => by
    rw [lowerStmt]
    split
    · exact .bind (Sound.report (P := fun _ _ => True) rfl).grows fun _ => .pure _
    · exact .bind (hsec _ _) fun _ => .pure _

theorem grows_lowerBranches (hsec : ∀ index locals, Grows sc (lowerSection index locals)) (locals : List String) :
    (branches : List Branch) → Grows sc (lowerBranches sc lowerSection locals branches)
  | [] => by
    rw [lowerBranches]
    exact .pure _
  | .mk cond body :: rest => by
    rw [lowerBranches]
    refine .bind (sound_lowerExpr locals cond).grows fun _ => .bind (grows_lowerStmts hsec locals body) fun _ => ?_
    exact .bind (grows_lowerBranches hsec locals rest) fun _ => .pure _

theorem grows_lowerStmts (hsec : ∀ index locals, Grows sc (lowerSection index locals)) (locals : List String) :
    (ss : List Stmt) → Grows sc (lowerStmts sc lowerSection locals ss)
  | [] => by
    rw [lowerStmts]
    exact .pure _
  | s :: ss => by
    rw [lowerStmts_cons]
    refine .bind (grows_lowerStmt hsec locals s) fun _ => ?_
    exact .bind (grows_lowerStmts hsec _ ss) fun _ => .pure _

end

theorem grows_lowerSection (depth index : Nat) (locals : List String) :
    Grows sc (Unit.lowerSection sc depth index locals) := by
  induction depth generalizing index locals with
  | zero =>
    intro s a s' hs
    cases hs
  | succ depth ih =>
    rw [Unit.lowerSection]
    split
    · exact .pure _
    · refine .bind (grows_lowerStmts ih locals _) fun body => ?_
      intro s a s' hs
      cases hs
      exact ⟨List.prefix_refl _, List.prefix_refl _, id, by simp⟩

end Stencil.Unit
