import Stencil.Ir.Program
import Stencil.Proofs.Lookup
import Stencil.Proofs.Unit.Soundness
import Stencil.Unit.Build

/-! What the module of a unit holds if lowering reports no error.

Every import is a helper of the references and the base type is one of those asked for, so that the module can be
linked. If sections are registered in the execute block itself and each at most once, the module realizes the
unit: its functions, its sections and its body stand for those of the unit. -/

namespace Stencil.Unit

/-! ### The unit as lowering sees it -/

/-- The declarations of a unit's class. -/
def Tree.outline (t : Tree) : Outline := t.decl.members.foldl Outline.add {}

/-- What the names of a unit are resolved against. -/
def Tree.scope (t : Tree) (options : LoweringOptions) (references : List Reference) : Scope :=
  ⟨options, references, t.usedNamespaces options, t.outline.functions, t.outline.sections⟩

/-- What is found before anything is lowered. -/
def Tree.start (t : Tree) (options : LoweringOptions) (references : List Reference) : Findings where
  sections := t.outline.sections.map fun _ => none
  problems := headerProblems options references t ++ t.outline.problems

/-! ### Steps of whole units -/

variable {sc : Scope}

namespace Sound

/-- Sound steps for all items of a list are sound together. -/
theorem lift_mapM {f : α → Resolve β} {P : List Ir.Import → α → β → Prop} (hP : ∀ a, Lasting fun is b => P is a b)
    (h : ∀ a, Sound sc (f a).lift fun is b => P is a b) (as : List α) :
    Sound sc (as.mapM f).lift fun is bs => List.Forall₂ (P is) as bs := by
  have hlasting : ∀ as, Lasting fun is bs => List.Forall₂ (P is) as bs := by
    intro as is is' bs hp hbs
    exact hbs.imp fun a b hb => hP a is is' b hp hb
  induction as with
  | nil =>
    rw [List.mapM_nil]
    exact lift_pure fun _ => .nil
  | cons a as ih =>
    rw [List.mapM_cons]
    refine lift_bind (h a) (hP a) fun b => lift_bind ih (hlasting as) fun bs => ?_
    exact lift_pure fun _ hbs hb => .cons hb hbs

end Sound

/-- What a function of a module stands for. -/
structure RealizesFunction (sc : Scope) (k : Linkage) (decl : FunctionDecl) (f : Ir.Function) : Prop where
  name : f.name = decl.name.name
  params : f.params = decl.params.map (·.name)
  body : Resolves sc k f.params decl.body f.body

theorem RealizesFunction.mono {k k' : Linkage} (hk : k.Le sc k') {decl : FunctionDecl} {f : Ir.Function}
    (h : RealizesFunction sc k decl f) : RealizesFunction sc k' decl f :=
  ⟨h.name, h.params, h.body.mono hk⟩

theorem sound_lowerFunction (decl : FunctionDecl) :
    Sound sc (lowerFunction sc decl).lift fun is f => RealizesFunction sc (.ofImports is) decl f := by
  unfold lowerFunction
  refine Sound.lift_bind (sound_lowerExpr (decl.params.map (·.name)) decl.body) lasting_resolves fun body => ?_
  exact Sound.lift_pure fun _ hb => ⟨rfl, rfl, hb⟩

theorem sound_lowerFunctions (decls : List FunctionDecl) :
    Sound sc (decls.mapM (lowerFunction sc)).lift
      fun is fs => List.Forall₂ (RealizesFunction sc (.ofImports is)) decls fs :=
  Sound.lift_mapM (fun _ _ _ _ hp h => h.mono (Linkage.ofImports_mono sc hp)) sound_lowerFunction decls

theorem grows_lowerLeft (depth n index : Nat) : Grows sc (lowerLeft sc depth n index) := by
  induction n generalizing index with
  | zero => exact .pure _
  | succ n ih =>
    intro s a s'' hs
    rw [lowerLeft] at hs
    change (do
      if ((s.sections[index]?).join.isNone) then lowerSection sc depth index []
      lowerLeft sc depth n (index + 1) : Lower PUnit) s = some (a, s'') at hs
    split at hs
    · exact Grows.bind (grows_lowerSection depth index []) (fun _ => ih (index + 1)) s a s'' hs
    · exact ih (index + 1) s a s'' hs

theorem grows_lowerOutline (o : Outline) (noExecute : SourcePos) : Grows sc (lowerOutline sc o noExecute) := by
  unfold lowerOutline
  refine .bind (sound_lowerFunctions o.functions).grows fun functions => ?_
  have hleft : ∀ body : List Ir.Stmt, Grows sc (do
      lowerLeft sc o.sections.length o.sections.length 0
      return (functions, body) : Lower (List Ir.Function × List Ir.Stmt)) :=
    fun body => .bind (grows_lowerLeft _ _ _) fun _ => .pure _
  dsimp only
  split
  · exact .bind (grows_lowerStmts (grows_lowerSection _) [] _) fun body => hleft body
  · exact .bind (Sound.report (P := fun _ _ => True) rfl).grows fun _ => hleft []

/-! ### Modules that can be linked -/

/-- The module of a unit, of what lowering its class has given. -/
def Tree.assemble (t : Tree) (options : LoweringOptions) (functions : List Ir.Function) (body : List Ir.Stmt)
    (s : Findings) : Ir.Module where
  format := Ir.formatVersion
  space := t.space.getD unitNamespace
  className := t.decl.name.name
  baseType := t.decl.base.name
  modelType := t.decl.model.name
  usings := t.usedNamespaces options
  layout := t.outline.layout
  layoutInherited := t.outline.layoutInherited
  imports := s.imports
  functions
  sections := s.sections.filterMap id
  body

variable {t : Tree} {options : LoweringOptions} {references : List Reference} {lowered : Lowered}

/-- Lowering a unit is lowering its class, and then looking at what has been found. -/
theorem Tree.lower?_eq (t : Tree) (options : LoweringOptions) (references : List Reference) :
    t.lower? options references = (lowerOutline (t.scope options references) t.outline t.decl.name.pos
      (t.start options references)).bind fun r =>
        let problems := r.2.problems ++ unusedFunctions r.2.called t.outline.functions
        if problems.any (·.2.isError) then some ⟨none, problems⟩
        else some ⟨some (t.assemble options r.1.1 r.1.2 r.2), problems⟩ := rfl

/-- A unit has a module if no problem is an error; the module is what lowering its class gives. -/
theorem lower?_eq_some (h : t.lower? options references = some lowered)
    (hok : lowered.problems.any (·.2.isError) = false) :
    ∃ functions body s, lowerOutline (t.scope options references) t.outline t.decl.name.pos
        (t.start options references) = some ((functions, body), s) ∧ s.Clean ∧
      lowered.compiled = some (t.assemble options functions body s) := by
  rw [Tree.lower?_eq, Option.bind_eq_some_iff] at h
  obtain ⟨⟨⟨functions, body⟩, s⟩, hrun, h⟩ := h
  dsimp only at h
  split at h
  · rename_i hbad
    cases h
    rw [hok] at hbad
    cases hbad
  · rename_i hgood
    cases h
    refine ⟨functions, body, s, hrun, ?_, rfl⟩
    intro p hp
    rw [List.any_eq_true] at hgood
    by_contra hbad
    exact hgood ⟨p, List.mem_append_left _ hp, by simpa using hbad⟩

/-- A module that is linked with the references it was lowered for. -/
structure Linkable (references : List Reference) (bases : List BaseType) (m : Ir.Module) : Prop where
  format : m.format = Ir.formatVersion
  base : (BaseType.find? bases m.baseType).isSome
  imports : ∀ i ∈ m.imports, Provided references i

/-- A unit without errors can be linked. -/
theorem linkable_of_clean {functions : List Ir.Function} {body : List Ir.Stmt} {s : Findings}
    (hrun : lowerOutline (t.scope options references) t.outline t.decl.name.pos (t.start options references) =
      some ((functions, body), s)) (hclean : s.Clean) :
    Linkable references options.baseTypes (t.assemble options functions body s) := by
  have hgrows := grows_lowerOutline _ _ _ _ _ hrun
  refine ⟨rfl, ?_, hgrows.provided fun i hi => by cases hi⟩
  by_contra hbase
  have hmem : (t.decl.base.pos, Problem.unknownBaseType t.decl.base.name) ∈ s.problems := by
    refine hgrows.problems.subset (List.mem_append_left _ ?_)
    have hnone : (BaseType.find? options.baseTypes t.decl.base.name).isNone := by
      simpa [Tree.assemble] using hbase
    simp [headerProblems, hnone]
  exact absurd (hclean _ hmem) (by simp [Problem.isError, Problem.severity])

/-- In references with distinct namespaces, a helper that one of them has is found. -/
theorem findHelper?_of_provided (hspaces : (references.map (·.space)).Nodup) {i : Ir.Import}
    (h : Provided references i) : ∃ g, Reference.findHelper? references i.space i.name = some g := by
  obtain ⟨r, hr, hspace, hh⟩ := h
  have hfind : Reference.find? references i.space = some r := hspace ▸ find?_of_nodup hspaces hr
  obtain ⟨g, hg⟩ := Option.isSome_iff_exists.mp hh
  exact ⟨g, by rw [Reference.findHelper?, hfind]; exact hg⟩

/-- A linkable module is linked, each import to the helper that is found for it. -/
theorem Linkable.link {bases : List BaseType} {m : Ir.Module} (hspaces : (references.map (·.space)).Nodup)
    (h : Linkable references bases m) :
    ∃ p, Program.link m references bases = .ok p ∧ p.module = m ∧
      List.Forall₂ (fun i g => Reference.findHelper? references i.space i.name = some g) m.imports p.helpers := by
  have himports : ∃ hs, m.imports.mapM (Program.bindImport references) = .ok hs ∧
      List.Forall₂ (fun i g => Reference.findHelper? references i.space i.name = some g) m.imports hs := by
    have hall := h.imports
    generalize m.imports = is at hall
    induction is with
    | nil => exact ⟨[], rfl, .nil⟩
    | cons i is ih =>
      obtain ⟨g, hg⟩ := findHelper?_of_provided hspaces (hall i (by simp))
      obtain ⟨gs, hgs, hrel⟩ := ih fun j hj => hall j (by simp [hj])
      refine ⟨g :: gs, ?_, .cons hg hrel⟩
      rw [List.mapM_cons, Program.bindImport, hg, hgs]
      rfl
  obtain ⟨hs, hmap, hrel⟩ := himports
  obtain ⟨base, hbase⟩ := Option.isSome_iff_exists.mp h.base
  refine ⟨⟨m, hs, base.encoding⟩, ?_, rfl, hrel⟩
  rw [Program.link, h.format, hmap, hbase]
  rfl

end Stencil.Unit
