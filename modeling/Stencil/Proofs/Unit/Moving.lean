import Stencil.Ir.Erasure
import Stencil.Proofs.Unit.Modules
import Stencil.Proofs.Unit.Relocation

/-! Lowering units that stand at other places.

Lowering looks at no places: it keeps those in the template and gives the others back with the problems that it reports. So
a unit at other places is lowered to the same module but for places, and the same problems are found, where they are now. -/

namespace Stencil.Unit

/-! ### Findings at other places -/

section
variable (r : SourcePos → SourcePos)

/-- The problem at another place. -/
def moveProblem (p : SourcePos × Problem) : SourcePos × Problem := (r p.1, p.2)

/-- The problems found at other places, and the sections at none. -/
def Findings.move (s : Findings) : Findings :=
  { s with
    sections := s.sections.map (·.map Ir.Section.erasePlaces)
    problems := s.problems.map (moveProblem r) }

/-- The declarations that names are resolved against, at other places. -/
def Scope.move (sc : Scope) : Scope :=
  { sc with functions := sc.functions.map (FunctionDecl.move r), sections := sc.sections.map (SectionDecl.move r) }

/-- A step does the same on moved findings as another one that moves afterwards, and gives what that gives, changed. -/
def Moves (f : α → β) (x : Lower α) (y : Lower β) : Prop :=
  ∀ s, y (s.move r) = (x s).map fun a => (f a.1, a.2.move r)

end

variable {r : SourcePos → SourcePos} {sc : Scope}

namespace Moves

variable {α' β' : Type} {f : α → α'} {g : β → β'}

theorem pure (a : α) : Moves r f (Pure.pure a : Lower α) (Pure.pure (f a)) := fun _ => rfl

theorem bind {x : Lower α} {y : Lower α'} {k : α → Lower β} {k' : α' → Lower β'} (hx : Moves r f x y)
    (hk : ∀ a, Moves r g (k a) (k' (f a))) : Moves r g (x >>= k) (y >>= k') := by
  intro s
  rw [show (y >>= k') (s.move r) = (y (s.move r)).bind fun a => k' a.1 a.2 from rfl, hx s,
    show (x >>= k) s = (x s).bind fun a => k a.1 a.2 from rfl]
  cases x s with
  | none => rfl
  | some a => exact hk a.1 a.2

theorem map {x : Lower α} {y : Lower α'} {k : α → β} {k' : α' → β'} (hx : Moves r f x y) (hk : ∀ a, k' (f a) = g (k a)) :
    Moves r g (k <$> x) (k' <$> y) := by
  rw [← bind_pure_comp, ← bind_pure_comp]
  refine hx.bind fun a => ?_
  rw [hk]
  exact pure _

theorem lift_pure (a : α) : Moves r f (Resolve.lift (Pure.pure a)) (Resolve.lift (Pure.pure (f a))) := pure a

theorem lift_bind {x : Resolve α} {y : Resolve α'} {k : α → Resolve β} {k' : α' → Resolve β'} (hx : Moves r f x.lift y.lift)
    (hk : ∀ a, Moves r g (k a).lift (k' (f a)).lift) : Moves r g (x >>= k).lift (y >>= k').lift :=
  show Moves r g (x.lift >>= fun a => (k a).lift) (y.lift >>= fun a => (k' a).lift) from bind hx hk

theorem report (pos : SourcePos) (p : Problem) : Moves r id (Unit.report pos p).lift (Unit.report (r pos) p).lift := by
  intro s
  show some (PUnit.unit, { s.move r with problems := (s.move r).problems ++ [(r pos, p)] }) =
    some (PUnit.unit, ({ s with problems := s.problems ++ [(pos, p)] } : Findings).move r)
  rw [Findings.move, Findings.move, List.map_append]
  rfl

/-- A problem is reported and nothing given. -/
theorem refuse (pos : SourcePos) (p : Problem) :
    Moves r id (do Unit.report pos p; return none : Resolve (Option α)).lift
      (do Unit.report (r pos) p; return none : Resolve (Option α)).lift :=
  (report pos p).lift_bind fun _ => lift_pure none

end Moves

/-! ### Calls -/

theorem moves_checkArity (name : String) (pos : SourcePos) (min max count : Nat) :
    Moves r id (checkArity name pos min max count).lift (checkArity name (r pos) min max count).lift := by
  unfold checkArity
  split
  · exact .pure true
  · exact (Moves.report _ _).lift_bind fun _ => .pure false

theorem moves_importSlot (i : Ir.Import) : Moves r id (importSlot i).lift (importSlot i).lift := by
  intro s
  show some (importSlot i (s.move r)) = some (id (importSlot i s).1, (importSlot i s).2.move r)
  rw [importSlot_eq, importSlot_eq, show (s.move r).imports = s.imports from rfl]
  cases s.imports.findIdx? (· == i) <;> rfl

theorem moves_bindHelper (reference : Reference) (h : Helper) (name : String) (pos : SourcePos) (count : Nat) :
    Moves r id (bindHelper reference h name pos count).lift (bindHelper reference h name (r pos) count).lift := by
  unfold bindHelper
  split
  · exact (moves_importSlot _).lift_bind fun _ => .pure _
  · exact .refuse _ _

theorem moves_arity (name : String) (pos : SourcePos) (min max count : Nat) (callee : Ir.Callee) :
    Moves r id
      (do return if ← checkArity name pos min max count then some callee else none : Resolve (Option Ir.Callee)).lift
      (do return if ← checkArity name (r pos) min max count then some callee else none :
        Resolve (Option Ir.Callee)).lift :=
  (moves_checkArity name pos min max count).lift_bind fun _ => .pure _

theorem moves_called (index : Nat) : Moves r id
    (modify fun s => { s with called := index :: s.called } : Resolve PUnit).lift
    (modify fun s => { s with called := index :: s.called } : Resolve PUnit).lift := fun _ => rfl

theorem findIdx?_move (sc : Scope) (name : String) :
    (sc.move r).functions.findIdx? (·.name.name == name) = sc.functions.findIdx? (·.name.name == name) := by
  rw [Scope.move, List.findIdx?_map]
  rfl

theorem params_move (sc : Scope) (index : Nat) :
    (((sc.move r).functions[index]?).map (·.params.length)).getD 0 =
      ((sc.functions[index]?).map (·.params.length)).getD 0 := by
  rw [Scope.move, List.getElem?_map, Option.map_map]
  congr 2
  funext f
  exact List.length_map _

theorem moves_resolveName (name : String) (pos : SourcePos) (count : Nat) :
    Moves r id (resolveName sc name pos count).lift (resolveName (sc.move r) name (r pos) count).lift := by
  unfold resolveName
  rw [findIdx?_move]
  split
  · refine (moves_called _).lift_bind fun _ => ?_
    simp only [params_move]
    exact moves_arity _ _ _ _ _ _
  · split
    · exact moves_arity _ _ _ _ _ _
    · rw [show (sc.move r).candidates name = sc.candidates name from rfl]
      split
      · exact .refuse _ _
      · exact moves_bindHelper _ _ _ _ _
      · exact .refuse _ _

theorem moves_resolvePath (path : List String) (pos : SourcePos) (count : Nat) :
    Moves r id (resolvePath sc path pos count).lift (resolvePath (sc.move r) path (r pos) count).lift := by
  unfold resolvePath
  dsimp only [Scope.move]
  split
  · split
    · exact moves_bindHelper _ _ _ _ _
    · exact .refuse _ _
  · exact .refuse _ _

theorem Expr.pos_move : (e : Expr) → (e.move r).pos = r e.pos
  | .literal _ _ | .name _ _ | .not _ _ => rfl
  | .member target _ | .call target _ => target.pos_move
  | .binary _ lhs _ => lhs.pos_move

theorem Expr.path?_move : (e : Expr) → (e.move r).path? = e.path?
  | .literal _ _ | .name _ _ | .not _ _ | .call _ _ | .binary _ _ _ => rfl
  | .member target n => by
    rw [Expr.move, Expr.path?, target.path?_move]
    rfl

theorem Expr.isModel_move (locals : List String) (e : Expr) : (e.move r).isModel locals = e.isModel locals := by
  cases e <;> rfl

theorem moves_resolveCallee (locals : List String) (target : Expr) (count : Nat) :
    Moves r id (resolveCallee sc locals target count).lift
      (resolveCallee (sc.move r) locals (target.move r) count).lift := by
  cases target with
  | name n pos =>
    unfold resolveCallee
    dsimp only [Expr.move]
    split
    · exact .refuse _ _
    · exact moves_resolveName _ _ _
  | member target n =>
    -- Whether a callee is a path does not depend on places.
    have hpath := (Expr.member target n).path?_move (r := r)
    have hpos := (Expr.member target n).pos_move (r := r)
    rw [Expr.move] at hpath hpos ⊢
    unfold resolveCallee
    dsimp only
    rw [hpath, hpos]
    split
    · exact moves_resolvePath _ _ _
    · exact .refuse _ _
  | literal | not => exact .refuse _ _
  | call target args =>
    have hpos := (Expr.call target args).pos_move (r := r)
    rw [Expr.move] at hpos ⊢
    unfold resolveCallee
    dsimp only
    rw [hpos]
    exact .refuse _ _
  | binary op lhs rhs =>
    have hpos := (Expr.binary op lhs rhs).pos_move (r := r)
    rw [Expr.move] at hpos ⊢
    unfold resolveCallee
    dsimp only
    rw [hpos]
    exact .refuse _ _

/-! ### Expressions -/

theorem moves_checkModelMember (n : Named) :
    Moves r id (checkModelMember sc n).lift (checkModelMember (sc.move r) (n.move r)).lift := by
  unfold checkModelMember
  change Moves r id _ (Resolve.lift (if !sc.options.modelType.accepts n.name then
    report (r n.pos) (.unknownMember sc.options.modelType.name n.name) else pure ()))
  split
  · exact .report _ _
  · exact .pure _

theorem Expr.length_moveAll (es : List Expr) : (Expr.moveAll r es).length = es.length := by
  induction es with
  | nil => rfl
  | cons e es ih => rw [Expr.moveAll, List.length_cons, List.length_cons, ih]

mutual

/-- An expression is lowered to the same wherever it stands. -/
theorem moves_lowerExpr (locals : List String) : (e : Expr) →
    Moves r id (lowerExpr sc locals e).lift (lowerExpr (sc.move r) locals (e.move r)).lift
  | .literal v pos => .pure _
  | .name n pos => by
    rw [Expr.move, lowerExpr, lowerExpr]
    split
    · exact .pure _
    · split
      · exact .pure _
      · exact (Moves.report _ _).lift_bind fun _ => .pure _
  | .member target n => by
    have htail : Moves r id (do return .member (← lowerExpr sc locals target) n.name : Resolve Ir.Expr).lift
        (do return .member (← lowerExpr (sc.move r) locals (target.move r)) n.name : Resolve Ir.Expr).lift :=
      (moves_lowerExpr locals target).lift_bind fun _ => .pure _
    rw [Expr.move, lowerExpr, lowerExpr, target.isModel_move]
    split
    · exact (moves_checkModelMember n).lift_bind fun _ => htail
    · exact htail
  | .call target args => by
    rw [Expr.move, lowerExpr, lowerExpr, Expr.length_moveAll]
    refine (moves_resolveCallee locals target args.length).lift_bind fun callee => ?_
    exact (moves_lowerExprs locals args).lift_bind fun _ => .pure _
  | .not operand pos => by
    rw [Expr.move, lowerExpr, lowerExpr]
    exact (moves_lowerExpr locals operand).lift_bind fun _ => .pure _
  | .binary op lhs rhs => by
    rw [Expr.move, lowerExpr, lowerExpr]
    refine (moves_lowerExpr locals lhs).lift_bind fun _ => ?_
    exact (moves_lowerExpr locals rhs).lift_bind fun _ => .pure _

theorem moves_lowerExprs (locals : List String) : (es : List Expr) →
    Moves r id (lowerExprs sc locals es).lift (lowerExprs (sc.move r) locals (Expr.moveAll r es)).lift
  | [] => .pure _
  | e :: es => by
    rw [Expr.moveAll, lowerExprs, lowerExprs]
    refine (moves_lowerExpr locals e).lift_bind fun _ => ?_
    exact (moves_lowerExprs locals es).lift_bind fun _ => .pure _

end

/-! ### Statements -/

theorem binds_move (s : Stmt) : (s.move r).binds = s.binds := by
  cases s <;> rfl

variable {lowered lowered' : SectionLowering}

mutual

/-- A statement is lowered to the same but for places, wherever it stands. -/
theorem moves_lowerStmt (hsection : ∀ index locals, Moves r id (lowered index locals) (lowered' index locals))
    (locals : List String) : (s : Stmt) → Moves r (Option.map Ir.Stmt.erasePlaces)
    (lowerStmt sc lowered locals s) (lowerStmt (sc.move r) lowered' locals (s.move r))
  | .write text => by
    rw [Stmt.move, lowerStmt, lowerStmt]
    exact .pure _
  | .emit e pos => by
    rw [Stmt.move, lowerStmt, lowerStmt]
    exact (moves_lowerExpr locals e).bind fun _ => .pure _
  | .var n e pos => by
    rw [Stmt.move, lowerStmt, lowerStmt]
    exact (moves_lowerExpr locals e).bind fun _ => .pure _
  | .ifElse branches none pos => by
    rw [Stmt.move, moveBlock, lowerStmt, lowerStmt]
    exact (moves_lowerBranches hsection locals branches).bind fun _ => .pure _
  | .ifElse branches (some body) pos => by
    rw [Stmt.move, moveBlock, lowerStmt, lowerStmt]
    refine (moves_lowerBranches hsection locals branches).bind fun bs => ?_
    have hbody : Moves r (Option.map Ir.Stmt.erasePlacesAll) (some <$> lowerStmts sc lowered locals body)
        (some <$> lowerStmts (sc.move r) lowered' locals (moveStmts r body)) :=
      (moves_lowerStmts hsection locals body).map fun _ => rfl
    refine hbody.bind fun otherwise => ?_
    cases otherwise <;> exact .pure _
  | .forEach n source body pos => by
    rw [Stmt.move, lowerStmt, lowerStmt]
    refine (moves_lowerExpr locals source).bind fun _ => ?_
    exact (moves_lowerStmts hsection (n.name :: locals) body).bind fun _ => .pure _
  | .defineSection n => by
    have hfind : (sc.move r).sections.findIdx? (·.name.name == n.name) = sc.sections.findIdx? (·.name.name == n.name) := by
      rw [Scope.move, List.findIdx?_map]
      rfl
    rw [Stmt.move, lowerStmt, lowerStmt]
    dsimp only [Named.move]
    rw [hfind]
    split
    · exact (Moves.report _ _).bind fun _ => .pure _
    · exact (hsection _ _).bind fun _ => .pure _

theorem moves_lowerBranches (hsection : ∀ index locals, Moves r id (lowered index locals) (lowered' index locals))
    (locals : List String) : (bs : List Branch) → Moves r Ir.Branch.erasePlacesAll
    (lowerBranches sc lowered locals bs) (lowerBranches (sc.move r) lowered' locals (moveBranches r bs))
  | [] => by
    rw [moveBranches, lowerBranches, lowerBranches]
    exact .pure _
  | .mk cond body :: rest => by
    rw [moveBranches, Branch.move, lowerBranches, lowerBranches]
    refine (moves_lowerExpr locals cond).bind fun _ => ?_
    refine (moves_lowerStmts hsection locals body).bind fun _ => ?_
    exact (moves_lowerBranches hsection locals rest).bind fun _ => .pure _

theorem moves_lowerStmts (hsection : ∀ index locals, Moves r id (lowered index locals) (lowered' index locals))
    (locals : List String) : (ss : List Stmt) → Moves r Ir.Stmt.erasePlacesAll
    (lowerStmts sc lowered locals ss) (lowerStmts (sc.move r) lowered' locals (moveStmts r ss))
  | [] => by
    rw [moveStmts, lowerStmts, lowerStmts]
    exact .pure _
  | s :: ss => by
    have hconcat : ∀ (i : Option Ir.Stmt) (is : List Ir.Stmt), Ir.Stmt.erasePlacesAll (i.toList ++ is) =
        (i.map Ir.Stmt.erasePlaces).toList ++ Ir.Stmt.erasePlacesAll is := by
      intro i is
      cases i <;> rfl
    rw [moveStmts, lowerStmts_cons, lowerStmts_cons, binds_move]
    refine (moves_lowerStmt hsection locals s).bind fun i => ?_
    refine (moves_lowerStmts hsection (s.binds ++ locals) ss).bind fun is => ?_
    rw [← hconcat]
    exact .pure _

end

theorem moves_lowerSection (depth index : Nat) (locals : List String) :
    Moves r id (lowerSection sc depth index locals) (lowerSection (sc.move r) depth index locals) := by
  induction depth generalizing index locals with
  | zero => exact fun _ => rfl
  | succ depth ih =>
    have hget : (sc.move r).sections[index]? = (sc.sections[index]?).map (SectionDecl.move r) := List.getElem?_map
    rw [lowerSection, lowerSection, hget]
    cases sc.sections[index]? with
    | none => exact .pure _
    | some decl =>
      refine (moves_lowerStmts ih locals decl.body).bind fun body => ?_
      intro s
      show some (PUnit.unit, { s.move r with
          sections := (s.move r).sections.set index (some ⟨decl.name.name, Ir.Stmt.erasePlacesAll body⟩) }) =
        some (PUnit.unit, ({ s with sections := s.sections.set index (some ⟨decl.name.name, body⟩) } : Findings).move r)
      rw [Findings.move, Findings.move, List.map_set]
      rfl

theorem moves_lowerLeft (depth n index : Nat) :
    Moves r id (lowerLeft sc depth n index) (lowerLeft (sc.move r) depth n index) := by
  induction n generalizing index with
  | zero => exact .pure _
  | succ n ih =>
    intro s
    have hleft : (((s.move r).sections[index]?).join.isNone) = ((s.sections[index]?).join.isNone) := by
      rw [Findings.move, List.getElem?_map]
      rcases s.sections[index]? with _ | _ | _ <;> rfl
    rw [lowerLeft, lowerLeft]
    change (do
      if ((s.move r).sections[index]?).join.isNone then lowerSection (sc.move r) depth index []
      lowerLeft (sc.move r) depth n (index + 1) : Lower PUnit) (s.move r) = ((do
      if (s.sections[index]?).join.isNone then lowerSection sc depth index []
      lowerLeft sc depth n (index + 1) : Lower PUnit) s).map _
    rw [hleft]
    split
    · exact (moves_lowerSection depth index []).bind (fun _ => ih (index + 1)) s
    · exact ih (index + 1) s

/-! ### Units -/

theorem moves_lowerFunctions (fs : List FunctionDecl) : Moves r (List.map Ir.Function.erasePlaces)
    (fs.mapM (lowerFunction sc)).lift ((fs.map (FunctionDecl.move r)).mapM (lowerFunction (sc.move r))).lift := by
  induction fs with
  | nil => exact .pure _
  | cons f fs ih =>
    have hf : Moves r Ir.Function.erasePlaces (lowerFunction sc f).lift (lowerFunction (sc.move r) (f.move r)).lift := by
      have hparams : (f.move r).params.map (·.name) = f.params.map (·.name) := by
        rw [FunctionDecl.move, List.map_map]
        rfl
      unfold lowerFunction
      rw [hparams]
      exact (moves_lowerExpr _ f.body).lift_bind fun _ => .pure _
    rw [List.map_cons, List.mapM_cons, List.mapM_cons]
    exact hf.lift_bind fun _ => ih.lift_bind fun _ => .pure _

/-- The declarations of a class at other places. -/
def Outline.move (r : SourcePos → SourcePos) (o : Outline) : Outline :=
  { o with
    functions := o.functions.map (FunctionDecl.move r)
    sections := o.sections.map (SectionDecl.move r)
    execute := moveBlock r o.execute
    problems := o.problems.map (moveProblem r) }

theorem Outline.add_move (o : Outline) (m : Member) : (o.move r).add (m.move r) = (o.add m).move r := by
  -- A problem moves along with the place it is found at.
  have hblame : ∀ (o : Outline) (bad : Bool) (pos : SourcePos) (p : Problem),
      (o.move r).blame bad (r pos) p = (o.blame bad pos p).move r := by
    intro o bad pos p
    cases bad with
    | false => rfl
    | true => simp [Outline.blame, Outline.move, moveProblem]
  have hsome : (moveBlock r o.execute).isSome = o.execute.isSome := by
    cases o.execute <;> rfl
  cases m with
  | layout key inherited pos =>
    show { (o.move r).blame o.layout.isSome (r pos) .layoutTwice with layout := some key, layoutInherited := inherited } = _
    rw [hblame]
    rfl
  | execute body pos =>
    show { (o.move r).blame (moveBlock r o.execute).isSome (r pos) .executeTwice with
      execute := some (moveStmts r body) } = _
    rw [hblame, hsome]
    rfl
  | function decl =>
    have hany : (o.move r).functions.any (·.name.name == decl.name.name) =
        o.functions.any (·.name.name == decl.name.name) := by
      rw [Outline.move, List.any_map]
      rfl
    rw [Member.move, Outline.add, Outline.add]
    show (if (o.move r).functions.any (·.name.name == decl.name.name) then _ else _) = _
    rw [hany]
    split
    · exact hblame o true decl.name.pos _
    · simp [Outline.move]
  | sectionDecl decl =>
    have hany : (o.move r).sections.any (·.name.name == decl.name.name) =
        o.sections.any (·.name.name == decl.name.name) := by
      rw [Outline.move, List.any_map]
      rfl
    rw [Member.move, Outline.add, Outline.add]
    show (if (o.move r).sections.any (·.name.name == decl.name.name) then _ else _) = _
    rw [hany]
    split
    · exact hblame o true decl.name.pos _
    · simp [Outline.move]

theorem Tree.outline_move (t : Tree) : (t.move r).outline = t.outline.move r := by
  have hfold : ∀ (ms : List Member) (o : Outline),
      (ms.map (Member.move r)).foldl Outline.add (o.move r) = (ms.foldl Outline.add o).move r := by
    intro ms
    induction ms with
    | nil => exact fun _ => rfl
    | cons m ms ih =>
      intro o
      rw [List.map_cons, List.foldl_cons, List.foldl_cons, Outline.add_move, ih]
  exact hfold t.decl.members {}

theorem moves_lowerOutline (o : Outline) (noExecute : SourcePos) :
    Moves r (fun x => (x.1.map Ir.Function.erasePlaces, Ir.Stmt.erasePlacesAll x.2)) (lowerOutline sc o noExecute)
      (lowerOutline (sc.move r) (o.move r) (r noExecute)) := by
  have hlength : (o.move r).sections.length = o.sections.length := List.length_map _
  unfold lowerOutline
  refine (moves_lowerFunctions o.functions).bind fun functions => ?_
  dsimp only
  rw [hlength]
  have hleft : ∀ body : List Ir.Stmt, Moves r (fun x => (x.1.map Ir.Function.erasePlaces, Ir.Stmt.erasePlacesAll x.2))
      (do lowerLeft sc o.sections.length o.sections.length 0
          return (functions, body) : Lower (List Ir.Function × List Ir.Stmt))
      (do lowerLeft (sc.move r) o.sections.length o.sections.length 0
          return (functions.map Ir.Function.erasePlaces, Ir.Stmt.erasePlacesAll body) :
        Lower (List Ir.Function × List Ir.Stmt)) :=
    fun body => (moves_lowerLeft _ _ _).bind fun _ => .pure _
  cases hexecute : o.execute with
  | some body =>
    have hmoved : (o.move r).execute = some (moveStmts r body) := by rw [Outline.move, hexecute]; rfl
    rw [hmoved]
    exact (moves_lowerStmts (moves_lowerSection _) [] body).bind fun body => hleft body
  | none =>
    have hmoved : (o.move r).execute = none := by rw [Outline.move, hexecute]; rfl
    rw [hmoved]
    exact (Moves.report _ _).bind fun _ => hleft []

variable {t : Tree} {options : LoweringOptions} {references : List Reference}

theorem Tree.usedNamespaces_move (t : Tree) (options : LoweringOptions) :
    (t.move r).usedNamespaces options = t.usedNamespaces options := by
  rw [Tree.usedNamespaces, Tree.move, List.map_map]
  rfl

theorem Tree.scope_move (t : Tree) : (t.move r).scope options references = (t.scope options references).move r := by
  rw [Tree.scope, Tree.outline_move, Tree.usedNamespaces_move]
  rfl

theorem headerProblems_move (t : Tree) :
    headerProblems options references (t.move r) = (headerProblems options references t).map (moveProblem r) := by
  have hbase : (t.move r).decl.base.name = t.decl.base.name := rfl
  have hmodel : (t.move r).decl.model.name = t.decl.model.name := rfl
  have husings : (t.move r).usings = t.usings.map (Named.move r) := rfl
  unfold headerProblems
  simp only [hbase, hmodel, husings, List.map_append, List.filter_map, List.map_map]
  congr 1
  congr 1
  · split <;> rfl
  · split <;> rfl

theorem Tree.start_move (t : Tree) : (t.move r).start options references = (t.start options references).move r := by
  rw [Tree.start, Tree.outline_move, headerProblems_move, Tree.start, Findings.move, List.map_append]
  simp [Outline.move, Function.comp_def]

theorem unusedFunctions_move (called : List Nat) (fs : List FunctionDecl) :
    unusedFunctions called (fs.map (FunctionDecl.move r)) = (unusedFunctions called fs).map (moveProblem r) := by
  unfold unusedFunctions
  rw [List.zipIdx_map, List.filter_map, List.map_map, List.map_map]
  rfl

theorem assemble_move (t : Tree) (functions : List Ir.Function) (body : List Ir.Stmt) (s : Findings) :
    (t.move r).assemble options (functions.map Ir.Function.erasePlaces) (Ir.Stmt.erasePlacesAll body) (s.move r) =
      (t.assemble options functions body s).erasePlaces := by
  have hsections : ((s.sections.map (·.map Ir.Section.erasePlaces)).filterMap id) =
      (s.sections.filterMap id).map Ir.Section.erasePlaces := by
    rw [List.filterMap_map, List.map_filterMap]
    rfl
  rw [Tree.assemble, Tree.outline_move, Tree.usedNamespaces_move, Findings.move]
  dsimp only
  rw [hsections]
  rfl

/-- What lowering gives at other places. -/
def Lowered.move (r : SourcePos → SourcePos) (l : Lowered) : Lowered :=
  ⟨l.compiled.map Ir.Module.erasePlaces, l.problems.map (moveProblem r)⟩

/-- A unit at other places is lowered to the same module but for places in the template, and has the same problems, where
they are now. -/
theorem Tree.lower?_move (t : Tree) (options : LoweringOptions) (references : List Reference) :
    (t.move r).lower? options references = (t.lower? options references).map (Lowered.move r) := by
  have hrun := @moves_lowerOutline r (t.scope options references) t.outline t.decl.name.pos
    (t.start options references)
  rw [Tree.lower?_eq, Tree.lower?_eq, Tree.scope_move, Tree.outline_move, Tree.start_move,
    show (t.move r).decl.name.pos = r t.decl.name.pos from rfl, hrun]
  cases lowerOutline (t.scope options references) t.outline t.decl.name.pos (t.start options references) with
  | none => rfl
  | some x =>
    obtain ⟨⟨functions, body⟩, s⟩ := x
    have hproblems : (s.move r).problems ++ unusedFunctions (s.move r).called (t.outline.move r).functions =
        (s.problems ++ unusedFunctions s.called t.outline.functions).map (moveProblem r) := by
      rw [List.map_append, ← unusedFunctions_move]
      rfl
    have hany : ((s.problems ++ unusedFunctions s.called t.outline.functions).map (moveProblem r)).any (·.2.isError) =
        (s.problems ++ unusedFunctions s.called t.outline.functions).any (·.2.isError) := by
      rw [List.any_map]
      rfl
    simp only [Option.map_some, Option.bind_some]
    rw [hproblems, hany, assemble_move]
    split <;> rfl

end Stencil.Unit
