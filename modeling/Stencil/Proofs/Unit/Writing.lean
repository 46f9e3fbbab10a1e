import Stencil.Proofs.Unit.Headers
import Stencil.Proofs.Unit.Loading

/-! Units that only write texts.

Such a unit is built without errors, its binary nests no deeper than a few levels, and the program that is loaded from
it writes the same texts. -/

namespace Stencil.Unit

open Markup (Node Fragment)

/-- The body of the unit writes the texts. The unit declares nothing else, and what it names is there. -/
structure Writes (options : LoweringOptions) (references : List Reference) (t : Tree) (texts : List String) : Prop where
  members : ∃ p, t.decl.members = [.execute (texts.map .write) p]
  base : (BaseType.find? options.baseTypes t.decl.base.name).isSome
  usings : ∀ u ∈ t.usings, (Reference.find? references u.name).isSome

/-- The module of a unit that only writes the texts. -/
def Tree.writing (t : Tree) (options : LoweringOptions) (texts : List String) : Ir.Module where
  format := Ir.formatVersion
  space := t.space.getD unitNamespace
  className := t.decl.name.name
  baseType := t.decl.base.name
  modelType := t.decl.model.name
  usings := t.usedNamespaces options
  layout := none
  layoutInherited := false
  imports := []
  functions := []
  sections := []
  body := texts.map .write

section
variable {t : Tree} {options : LoweringOptions} {references : List Reference} {texts : List String}

theorem lowerStmts_writes (sc : Scope) (lowerSection : SectionLowering) (locals : List String) (texts : List String)
    (s : Findings) : lowerStmts sc lowerSection locals (texts.map .write) s = some (texts.map .write, s) := by
  induction texts with
  | nil => rfl
  | cons text texts ih =>
    rw [List.map_cons, lowerStmts_cons]
    show (lowerStmts sc lowerSection locals (texts.map .write) s).bind _ = _
    rw [ih]
    rfl

/-- The header of a unit that only writes has no errors. It may be written for another model type than the requested one. -/
theorem Writes.headerProblems (h : Writes options references t texts) :
    (headerProblems options references t).any (·.2.isError) = false := by
  have hbase : (BaseType.find? options.baseTypes t.decl.base.name).isNone = false := by
    rw [Option.isNone_eq_false_iff]
    exact h.base
  have husings : t.usings.filter (fun u => (Reference.find? references u.name).isNone) = [] := by
    rw [List.filter_eq_nil_iff]
    intro u hu
    rw [Bool.not_eq_true, Option.isNone_eq_false_iff]
    exact h.usings u hu
  unfold Unit.headerProblems
  dsimp only
  rw [hbase, husings, if_neg Bool.false_ne_true]
  split <;> rfl

theorem lowerOutline_writes (sc : Scope) (pos : SourcePos) (texts : List String) (s : Findings) :
    lowerOutline sc { execute := some (texts.map .write) } pos s = some (([], texts.map .write), s) := by
  show (lowerStmts sc _ [] (texts.map .write) s).bind _ = _
  rw [lowerStmts_writes]
  rfl

/-- Nothing is wrong with a unit that only writes, but what is with its header. -/
theorem Writes.lower? (h : Writes options references t texts) :
    t.lower? options references = some ⟨some (t.writing options texts), Unit.headerProblems options references t⟩ := by
  obtain ⟨p, hmembers⟩ := h.members
  have hproblems := h.headerProblems
  unfold Tree.lower?
  rw [hmembers]
  show (lowerOutline _ { execute := some (texts.map .write) } _ _).bind _ = _
  rw [lowerOutline_writes]
  show (if ((Unit.headerProblems options references t ++ []) ++ []).any (·.2.isError) then some (Lowered.mk none _)
    else some (Lowered.mk (some (t.writing options texts)) ((Unit.headerProblems options references t ++ []) ++ []))) = _
  rw [List.append_nil, List.append_nil, if_neg (Bool.eq_false_iff.mp hproblems)]

/-- A unit that only writes is built. -/
theorem Writes.build {source : String} {options : BuildOptions} (h : Writes options.toLoweringOptions references t texts)
    (hsource : Tree.ofSource source = .ok t) : (build source options references).hasErrors = false ∧
      (build source options references).binary =
        some ((t.writing options.toLoweringOptions texts).encode options.debug) := by
  have hbuild : Unit.build source options references =
      ⟨some ((t.writing options.toLoweringOptions texts).encode options.debug),
        (Unit.headerProblems options.toLoweringOptions references t).map fun p => p.2.diagnostic p.1⟩ := by
    unfold Unit.build
    rw [hsource]
    dsimp only
    rw [h.lower?]
    rfl
  rw [hbuild]
  refine ⟨?_, rfl⟩
  rw [BuildOutput.hasErrors, List.any_map]
  exact h.headerProblems

/-! ### The binary -/

theorem nesting_writes (texts : List String) : Json.nestingItems (Ir.stmtsJson (texts.map .write)) ≤ 1 := by
  rw [Ir.stmtsJson_eq_map, Json.nestingItems_le, List.map_map]
  intro v hv
  obtain ⟨text, -, rfl⟩ := List.mem_map.mp hv
  exact Nat.le_refl 1

theorem rereadStmts?_writes (texts : List String) : Ir.rereadStmts? (texts.map .write) = some (texts.map .write) := by
  induction texts with
  | nil => rfl
  | cons text texts ih =>
    rw [List.map_cons, Ir.rereadStmts?, ih]
    rfl

/-- The module comes back from its binary. -/
theorem decode?_writing (t : Tree) (options : LoweringOptions) (texts : List String) (debug : Bool) :
    Ir.Module.decode? ((t.writing options texts).encode debug) = some (t.writing options texts) := by
  have hnesting : (t.writing options texts).toJson.nesting ≤ Ir.maxNesting := by
    have hbody := nesting_writes texts
    have husings := Json.nestingItems_strings (t.usedNamespaces options)
    have hmax : Ir.maxNesting = 127 := rfl
    simp only [Ir.Module.toJson, Tree.writing, Json.nesting, Json.nestingMembers, Json.ofNat, Json.ofOption, husings, hmax,
      List.map_nil, Json.nestingItems]
    omega
  have hreread : (t.writing options texts).reread? = some (t.writing options texts) := by
    show (Ir.rereadStmts? (texts.map .write)).bind _ = _
    rw [rereadStmts?_writes]
    rfl
  rw [Ir.Module.decode?_encode, if_pos hnesting, hreread]

/-- The program that is loaded from the binary is the module. -/
theorem Writes.load (h : Writes options references t texts) (debug : Bool) :
    ∃ encoding, Program.load ((t.writing options texts).encode debug) references options.baseTypes =
      .ok ⟨t.writing options texts, [], encoding⟩ := by
  obtain ⟨base, hbase⟩ := Option.isSome_iff_exists.mp h.base
  refine ⟨base.encoding, ?_⟩
  rw [Program.load, decode?_writing]
  show Program.link _ _ _ = _
  have hbase' : BaseType.find? options.baseTypes (t.writing options texts).baseType = some base := hbase
  rw [Program.link, hbase']
  rfl

/-- What a compiler that keeps no files makes of a unit that only writes texts writes them. -/
theorem Writes.compile {c : Compiler} {unit : Generated} {context : TypeContext} {own : List Reference} {w : Workshop}
    (h : Writes (c.options context).toLoweringOptions (c.resolver own c.defaultReferences) t texts)
    (htoolchain : c.toolchain = Unit.build) (hmemory : w.artifacts.folder = none)
    (hsource : Tree.ofSource unit.source = .ok t) :
    ∃ compiled, (c.compile unit context own w).1 = .ok compiled ∧ compiled.module.body = texts.map .write ∧
      compiled.layout = none := by
  obtain ⟨herrors, hbinary⟩ := h.build hsource
  rw [← htoolchain] at herrors hbinary
  obtain ⟨encoding, hload⟩ := h.load (c.options context).debug
  have hcompile := Compiler.compile_in_memory hmemory herrors hbinary
  rw [show c.baseTypes = (c.options context).baseTypes from rfl, hload] at hcompile
  exact ⟨_, hcompile, rfl, rfl⟩

end

/-! ### The unit of a template that is literal text -/

section
variable {bases : List BaseType} {context : TypeContext} {texts : List String} {pos : SourcePos}

/-- What a template declares that has no directives and no import files. -/
def Declared.nothing : Declared := Declared.merge {} {}

theorem fragmentsAll_texts (texts : List String) (pos : SourcePos) : Node.fragmentsAll (texts.map (.text · pos)) = [] := by
  induction texts with
  | nil => rfl
  | cons text texts ih => exact ih

theorem properAll_texts (texts : List String) (pos : SourcePos) : Node.ProperAll true (texts.map (.text · pos)) := by
  induction texts with
  | nil => trivial
  | cons text texts ih => exact ⟨trivial, ih⟩

theorem parts_texts (texts : List String) (pos : SourcePos) :
    parts .nothing (texts.map (.text · pos)) = [.execute (texts.map (.text · pos))] := by
  have hsections : (texts.map (Node.text · pos)).filterMap sectionPart? = [] := by
    rw [List.filterMap_eq_nil_iff]
    intro n hn
    obtain ⟨text, -, rfl⟩ := List.mem_map.mp hn
    rfl
  rw [parts, hsections]
  rfl

theorem ready_texts (hc : Dotted bases context) : UnitReady bases context .nothing (texts.map (.text · pos)) where
  namespaces _ h := namespaces_dotted hc (fun _ h => absurd h List.not_mem_nil) h
  base := hc.base
  model := hc.model
  header _ h := nomatch h
  layout _ h := nomatch h
  imported _ h := nomatch h
  own _ h := nomatch h
  proper := properAll_texts texts pos
  code f hf := by
    rw [fragmentsAll_texts] at hf
    cases hf

theorem pragma_not_mem_texts (depth : Nat) (texts : List String) (pos : SourcePos) (p : Pragma) :
    .pragma p ∉ nodeListLines depth (texts.map (.text · pos)) := by
  induction texts with
  | nil => exact List.not_mem_nil
  | cons text texts ih =>
    rw [List.map_cons, nodeListLines, List.mem_append, not_or]
    exact ⟨by simp [nodeLines], ih⟩

theorem sectionLines_texts (texts : List String) (pos : SourcePos) :
    (texts.map (Node.text · pos)).flatMap sectionLines = [] := by
  rw [List.flatMap_eq_nil_iff]
  intro n hn
  obtain ⟨text, -, rfl⟩ := List.mem_map.mp hn
  rfl

/-- No line of the unit is a pragma. -/
theorem counted_texts (pragmas : Bool) (key : String) (bases : List BaseType) (context : TypeContext) (texts : List String)
    (pos : SourcePos) : Counted (Line.select pragmas (unitLines key bases context .nothing (texts.map (.text · pos)))) := by
  have hselect : ∀ ls : List Line, Line.select pragmas ls ⊆ ls := by
    intro ls
    cases pragmas with
    | false => exact List.filter_subset_self _
    | true => exact List.Subset.refl _
  refine .inl fun p hp => ?_
  have hmem := hselect _ hp
  have hbody := pragma_not_mem_texts 2 texts pos p
  simp [unitLines, sectionLines_texts, headerLines, layoutLines, Declared.nothing, Declared.merge, braced, hbody] at hmem

/-- What mirrors nodes of text writes the texts. -/
theorem MirrorStmts.writes {Means : List Char → Expr → Prop} {place : SourcePos → Option SourcePos} {ss : List Stmt}
    (h : MirrorStmts Means place (texts.map (.text · pos)) ss) : ss = texts.map .write := by
  induction texts generalizing ss with
  | nil =>
    cases h
    rfl
  | cons text texts ih =>
    cases h with
    | cons hn hs =>
      cases hn
      rw [ih hs, List.map_cons]

/-- Nodes of text have no code. -/
theorem unitFragments_texts {Q : Fragment → Prop} (texts : List String) (pos : SourcePos) :
    ∀ f ∈ unitFragments .nothing (texts.map (.text · pos)), Q f := by
  intro f hf
  rcases List.mem_append.mp hf with hf | hf
  · cases hf
  · rw [fragmentsAll_texts] at hf
    cases hf

section
variable {Means : List Char → Expr → Prop} {pragmas : Bool} {t : Tree}

/-- The class of a template that is literal text writes the text, and does nothing else. -/
theorem MirrorTree.members_texts (h : MirrorTree Means pragmas bases context .nothing (texts.map (.text · pos)) t) :
    ∃ p, t.decl.members = [.execute (texts.map .write) p] := by
  have hmembers := h.members
  rw [parts_texts] at hmembers
  generalize t.decl.members = ms at hmembers
  cases hmembers with
  | cons hm hrest =>
    cases hrest
    cases hm with
    | execute hb => exact ⟨_, by rw [hb.writes]⟩

/-- The unit of a template that is literal text only writes it, if what it names is there. -/
theorem MirrorTree.writes {options : LoweringOptions} {references : List Reference}
    (h : MirrorTree Means pragmas bases context .nothing (texts.map (.text · pos)) t)
    (hbase : (BaseType.find? options.baseTypes context.baseType.name).isSome)
    (husings : ∀ s ∈ usedNamespaces bases context .nothing, (Reference.find? references s).isSome) :
    Writes options references t texts where
  members := h.members_texts
  base := by
    rw [h.base]
    exact hbase
  usings u hu := husings _ (h.usings ▸ List.mem_map_of_mem hu)

end

section
variable {m : ModelType} (pragmas : Bool) (key : String) (texts : List String) (pos : SourcePos)

/-- The lines of the unit of a template that is literal text. -/
def textLines (bases : List BaseType) (context : TypeContext) : List Line :=
  Line.select pragmas (unitLines key bases context .nothing (texts.map (.text · pos)))

/-- The unit of a template that is literal text is read if the text that stands for the name of its model type reads as a
name, and then it mirrors the template. -/
theorem read_texts (hc : Dotted bases { context with modelType := m }) {name : String}
    (hname : ReadsAs context.modelType.name name) :
    ∃ t, Tree.ofSource (Line.render (textLines pragmas key texts pos bases context)) = .ok t ∧
      MirrorTree (fun _ _ => False) pragmas bases { context with modelType := .ofName name } .nothing
        (texts.map (.text · pos)) t :=
  read_of_readsAs (ready_texts hc) rfl (counted_texts pragmas key bases context texts pos) (unitFragments_texts texts pos)
    (unitFragments_texts texts pos) hname

/-- It is read only then. -/
theorem readsAs_of_read_texts (hc : Dotted bases { context with modelType := m }) {t : Tree}
    (hread : Tree.ofSource (Line.render (textLines pragmas key texts pos bases context)) = .ok t) :
    ReadsAs context.modelType.name t.decl.model.name :=
  @readsAs_of_read (fun _ _ => False) pragmas key bases context .nothing _ m t (ready_texts hc) rfl
    (counted_texts pragmas key bases context texts pos) (unitFragments_texts texts pos) hread

end

end

end Stencil.Unit
