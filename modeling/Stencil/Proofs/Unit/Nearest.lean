import Stencil.Proofs.Lookup
import Stencil.Proofs.Source.Imports
import Stencil.Proofs.Unit.Generation

/-! The nearest declaration counts.

A template and the import files of its directories may all declare a model, a base type, a layout and functions. The unit
has each of them as the template declares it, else as the import file nearest to the template does, else as the context
gives it; the namespaces add up. -/

namespace Stencil.Unit

open Markup (Directive Directives Document Node)

/-! ### What counts -/

/-- What counts of one thing that the directives of files declare, where the files are given farthest first: what the
template itself declares, else what a file declares that has no nearer one with a declaration. -/
inductive Counts {α : Type} (get : Directives → Option α) (files : List Directives) (own : Directives) : Option α → Prop
  | own {a : α} (h : get own = some a) : Counts get files own (some a)
  | imported {outer inner : List Directives} {file : Directives} {a : α} (hown : get own = none)
      (hfiles : files = outer ++ file :: inner) (hfile : get file = some a) (hinner : ∀ f ∈ inner, get f = none) :
      Counts get files own (some a)
  | nowhere (hown : get own = none) (hfiles : ∀ f ∈ files, get f = none) : Counts get files own none

/-- What the last of the files with a declaration declares. -/
def nearest? {α : Type} (get : Directives → Option α) (files : List Directives) : Option α :=
  files.reverse.findSome? get

section
variable {α : Type} {get : Directives → Option α} {files : List Directives} {own : Directives} {r : Option α}

theorem nearest?_snoc : nearest? get (files ++ [own]) = (get own).or (nearest? get files) := by
  rw [nearest?, List.reverse_append, List.findSome?_append]
  simp [nearest?]

theorem counts_iff : Counts get files own r ↔ nearest? get (files ++ [own]) = r := by
  rw [nearest?_snoc]
  constructor
  · intro h
    cases h with
    | own h => rw [h, Option.some_or]
    | @imported outer inner file a hown hfiles hfile hinner =>
      rw [hown, Option.none_or, nearest?, List.findSome?_eq_some_iff]
      exact ⟨inner.reverse, file, outer.reverse, by simp [hfiles], hfile, by simpa using hinner⟩
    | nowhere hown hfiles =>
      rw [hown, Option.none_or, nearest?, List.findSome?_eq_none_iff]
      simpa using hfiles
  · rintro rfl
    cases hown : get own with
    | some a => exact .own hown
    | none =>
      rw [Option.none_or]
      cases hfiles : nearest? get files with
      | none =>
        rw [nearest?, List.findSome?_eq_none_iff] at hfiles
        exact .nowhere hown (by simpa using hfiles)
      | some a =>
        obtain ⟨inner, file, outer, hsplit, hfile, hinner⟩ := List.findSome?_eq_some_iff.mp hfiles
        have hfiles : files = outer.reverse ++ file :: inner.reverse := by
          simpa using congrArg List.reverse hsplit
        exact .imported hown hfiles hfile (by simpa using hinner)

end

/-! ### What import files declare together -/

/-- What directives declare together, farthest file first. -/
def Imported.together (files : List Directives) : Imported := files.foldl Imported.add {}

section
variable {files : List Directives} {own : Directives} {sources : List TemplateSource} {documents : List Document}

theorem Imported.together_snoc : Imported.together (files ++ [own]) = (Imported.together files).add own := by
  rw [Imported.together, List.foldl_append]
  rfl

theorem Imported.ofFiles_eq
    (h : List.Forall₂ (fun f d => Markup.parse f.key f.content = .ok d) sources documents) :
    Imported.ofFiles sources = .ok (Imported.together (documents.map (·.directives))) := by
  unfold Imported.ofFiles Imported.together
  generalize ({} : Imported) = m
  induction h generalizing m with
  | nil => rfl
  | cons hd _ ih =>
    rw [List.foldlM_cons, hd]
    exact ih _

/-- Of a directive that each file takes from its own or else from the files so far, the nearest file's counts. -/
theorem Imported.nearest (get : Directives → Option Directive) (proj : Imported → Option Merged) (hempty : proj {} = none)
    (hadd : ∀ m ds, proj (m.add ds) = ((get ds).map .imported).or (proj m)) (files : List Directives) :
    proj (Imported.together files) = (nearest? get files).map .imported := by
  induction files using List.reverseRecOn with
  | nil => exact hempty
  | append_singleton files own ih =>
    rw [Imported.together_snoc, hadd, ih, nearest?_snoc]
    cases get own <;> rfl

theorem value_or_imported {d n : Option Directive} :
    ((d.map Merged.own).or (n.map Merged.imported)).map (·.value) = (d.or n).map (·.value) := by
  cases d <;> cases n <;> rfl

theorem merge_model_value : (Declared.merge (Imported.together files) own).model.map (·.value) =
    (nearest? (·.model) (files ++ [own])).map (·.value) := by
  rw [nearest?_snoc, Declared.merge, Imported.nearest (·.model) (·.model) rfl fun _ _ => rfl]
  exact value_or_imported

theorem merge_inherits_value : (Declared.merge (Imported.together files) own).inherits.map (·.value) =
    (nearest? (·.inherits) (files ++ [own])).map (·.value) := by
  rw [nearest?_snoc, Declared.merge, Imported.nearest (·.inherits) (·.inherits) rfl fun _ _ => rfl]
  exact value_or_imported

theorem merge_layout : (Declared.merge (Imported.together files) own).layout.map
    (fun l => (l.value, (Declared.merge (Imported.together files) own).layoutInherited)) =
      (nearest? (·.layout) (files ++ [own])).map fun l => (l.value, own.layout.isNone) := by
  rw [nearest?_snoc, Declared.merge, Imported.nearest (·.layout) (·.layout) rfl fun _ _ => rfl]
  cases own.layout <;> cases nearest? (·.layout) files <;> rfl

theorem mem_together_usings {n : String} :
    n ∈ (Imported.together files).usings ↔ ∃ ds ∈ files, ∃ d ∈ ds.usings, d.value = n := by
  induction files using List.reverseRecOn with
  | nil => simp [Imported.together]
  | append_singleton files own ih => simp [Imported.together_snoc, Imported.add, ih, or_and_right, exists_or]

end

/-! ### Functions -/

/-- The function of a name that directives declare. -/
def functionOf? (name : String) (ds : Directives) : Option Markup.FunctionDecl := ds.functions.find? (·.name == name)

/-- Functions, and others that take the place of those with the same name. -/
def shadow (fs gs : List Markup.FunctionDecl) : List Markup.FunctionDecl := fs.filter (fun f => !gs.any (·.name == f.name)) ++ gs

/-- The functions that files declare together, farthest file first. -/
def functionsOf (files : List Directives) : List Markup.FunctionDecl := files.foldl (fun fs ds => shadow fs ds.functions) []

section
variable {fs gs : List Markup.FunctionDecl} {f : Markup.FunctionDecl} {files : List Directives} {own : Directives}

theorem mem_shadow : f ∈ shadow fs gs ↔ f ∈ gs ∨ f ∈ fs ∧ ∀ g ∈ gs, g.name ≠ f.name := by
  simp [shadow, or_comm]

theorem shadow_nodup (hf : (fs.map (·.name)).Nodup) (hg : (gs.map (·.name)).Nodup) :
    ((shadow fs gs).map (·.name)).Nodup := by
  rw [shadow, List.map_append, List.nodup_append]
  refine ⟨hf.sublist (List.filter_sublist.map _), hg, fun a ha b hb hab => ?_⟩
  obtain ⟨f, hmem, rfl⟩ := List.mem_map.mp ha
  obtain ⟨g, hgs, rfl⟩ := List.mem_map.mp hb
  have := (List.mem_filter.mp hmem).2
  simp only [Bool.not_eq_true', List.any_eq_false, beq_iff_eq] at this
  exact this g hgs hab.symm

/-- Dropping a name and adding it again at the end, one function after the other, replaces the functions at once. -/
theorem foldl_eq_shadow (hg : (gs.map (·.name)).Nodup) :
    gs.foldl (fun fs f => fs.filter (·.name != f.name) ++ [f]) fs = shadow fs gs := by
  -- The names of `gs` are distinct, so none that has been added is dropped again.
  induction gs generalizing fs with
  | nil => simp [shadow]
  | cons g gs ih =>
    rw [List.map_cons, List.nodup_cons] at hg
    have hnew : ∀ x ∈ gs, x.name ≠ g.name := fun x hx h => hg.1 (h ▸ List.mem_map_of_mem hx)
    rw [List.foldl_cons, ih hg.2]
    simp only [shadow, List.filter_append, List.filter_filter, List.any_cons, List.append_assoc]
    congr 1
    · refine List.filter_congr fun x _ => ?_
      simp [bne, Bool.and_comm, Bool.beq_comm]
    · have : gs.any (·.name == g.name) = false := by simpa using hnew
      simp [this]

theorem functionsOf_snoc : functionsOf (files ++ [own]) = shadow (functionsOf files) own.functions := by
  rw [functionsOf, List.foldl_append]
  rfl

theorem functionOf?_eq_some (h : (own.functions.map (·.name)).Nodup) :
    functionOf? f.name own = some f ↔ f ∈ own.functions :=
  ⟨List.mem_of_find?_eq_some, find?_of_nodup h⟩

theorem functionOf?_eq_none {name : String} : functionOf? name own = none ↔ ∀ g ∈ own.functions, g.name ≠ name := by
  simp [functionOf?]

/-- Each function stands where the nearest file declares one of its name. -/
theorem mem_functionsOf (h : ∀ ds ∈ files, (ds.functions.map (·.name)).Nodup) :
    f ∈ functionsOf files ↔ nearest? (functionOf? f.name) files = some f := by
  induction files using List.reverseRecOn with
  | nil => simp [functionsOf, nearest?]
  | append_singleton files own ih =>
    have hown := h own (List.mem_append_right _ List.mem_cons_self)
    rw [functionsOf_snoc, mem_shadow, nearest?_snoc, ih fun ds hds => h ds (List.mem_append_left _ hds),
      ← functionOf?_eq_some hown, ← functionOf?_eq_none, Option.or_eq_some_iff]
    exact or_congr_right and_comm

theorem functionsOf_nodup (h : ∀ ds ∈ files, (ds.functions.map (·.name)).Nodup) :
    ((functionsOf files).map (·.name)).Nodup := by
  induction files using List.reverseRecOn with
  | nil => exact List.nodup_nil
  | append_singleton files own ih =>
    rw [functionsOf_snoc]
    exact shadow_nodup (ih fun ds hds => h ds (List.mem_append_left _ hds)) (h own (List.mem_append_right _ List.mem_cons_self))

theorem together_functions (h : ∀ ds ∈ files, (ds.functions.map (·.name)).Nodup) :
    (Imported.together files).functions = functionsOf files := by
  induction files using List.reverseRecOn with
  | nil => rfl
  | append_singleton files own ih =>
    rw [Imported.together_snoc, functionsOf_snoc, ← ih fun ds hds => h ds (List.mem_append_left _ hds)]
    exact foldl_eq_shadow (h own (List.mem_append_right _ List.mem_cons_self))

/-- The functions of the import files that the template does not replace, and its own ones. -/
theorem merge_functions (h : ∀ ds ∈ files, (ds.functions.map (·.name)).Nodup) :
    (Declared.merge (Imported.together files) own).importedFunctions ++
      (Declared.merge (Imported.together files) own).ownFunctions = functionsOf (files ++ [own]) := by
  rw [functionsOf_snoc, ← together_functions h]
  rfl

end

/-! ### The text of a unit -/

/-- What a unit declares. -/
structure Declarations where
  usings : List String
  base : String
  model : String
  /-- The layout, and whether it is the default one. -/
  layout : Option (String × Bool)
  functions : List Markup.FunctionDecl

/-- The line of a function. -/
def functionLine (f : Markup.FunctionDecl) : Line :=
  let params := ", ".intercalate f.params
  .code 1 s!"function {f.name}({params}) => {Line.singleLine f.code};"

/-- The line of a layout. -/
def layoutLine (layout : String × Bool) : Line :=
  let what := if layout.2 then "default layout " else "layout "
  .code 1 s!"{what}{Json.quote layout.1};"

/-- The lines of a class with these declarations and the code of the nodes, without pragmas. -/
def Declarations.lines (u : Declarations) (key : String) (className : ClassName) (nodes : List Node) : List Line :=
  [.code 0 "// <auto-generated />", .code 0 s!"// template: {Line.singleLine key}",
    .code 0 s!"namespace {unitNamespace};", .blank] ++
  u.usings.map (fun ns => .code 0 s!"using {ns};") ++
  .blank :: .code 0 s!"internal class {className.text} : {u.base}<{u.model}>" :: .code 0 "\x7b" ::
  (u.layout.map layoutLine).toList ++ u.functions.map functionLine ++
  Line.select false (nodes.flatMap sectionLines ++
    .blank :: .code 1 "execute" :: braced 1 (nodeListLines 2 nodes)) ++
  [.code 0 "\x7d"]

/-- The base type whose namespaces a unit uses: the first one with the name that is declared, or the context's. -/
def baseType? (bases : List BaseType) (context : TypeContext) : Option String → Option BaseType
  | some name => BaseType.find? bases name
  | none => some context.baseType

/-- The declarations are the nearest ones of a template and its import files, else those of the context. -/
structure Declarations.Nearest (u : Declarations) (bases : List BaseType) (context : TypeContext) (files : List Directives)
    (own : Directives) : Prop where
  model : ∃ d, Counts (·.model) files own d ∧ u.model = (d.map (·.value)).getD context.modelType.name
  base : ∃ d, Counts (·.inherits) files own d ∧ u.base = (d.map (·.value)).getD context.baseType.name ∧
    ∀ n, n ∈ u.usings ↔ (∃ b ∈ baseType? bases context (d.map (·.value)), n ∈ b.requiredNamespaces) ∨
      n ∈ context.namespaces ∨ ∃ ds ∈ files ++ [own], ∃ e ∈ ds.usings, e.value = n
  sorted : u.usings.Pairwise (· < ·)
  layout : ∃ d, Counts (·.layout) files own d ∧ u.layout = d.map fun d => (d.value, own.layout.isNone)
  function : ∀ f, f ∈ u.functions ↔ Counts (functionOf? f.name) files own (some f)
  names : (u.functions.map (·.name)).Nodup

section
variable {bases : List BaseType} {context : TypeContext} {d : Declared}

theorem select_mapped (depth : Nat) (pos : Option SourcePos) (before code after : String) :
    Line.select false (Line.mapped depth pos before code after) = [.code depth (before ++ Line.singleLine code ++ after)] := by
  cases pos <;> rfl

theorem singleLine_path {name : String} (h : Text.isDottedName name.toList = true) : Line.singleLine name = name :=
  String.toList_injective (toList_singleLine_path h)

theorem select_headerLines (hi : ∀ n ∈ d.inherits, Text.isDottedName n.value.toList = true)
    (hm : ∀ n ∈ d.model, Text.isDottedName n.value.toList = true) :
    Line.select false (headerLines context d) =
      [.code 0 s!"internal class {context.className.text} : {d.baseName context}<{d.modelName context}>"] := by
  unfold headerLines Declared.baseName Declared.modelName
  dsimp only
  split
  · rename_i hpos
    obtain ⟨n, hn, -⟩ := Option.bind_eq_some_iff.mp hpos
    rw [select_mapped, hn, Option.map_some, Option.getD_some, singleLine_path (hi n hn), String.append_assoc]
    simp [String.append_assoc, toString]
  · rename_i hpos
    obtain ⟨n, hn, -⟩ := Option.bind_eq_some_iff.mp hpos
    rw [select_mapped, hn, Option.map_some, Option.getD_some, singleLine_path (hm n hn)]
    rfl
  · rfl

theorem select_layoutLines : Line.select false (layoutLines d) =
    (d.layout.map fun l => layoutLine (l.value, d.layoutInherited)).toList := by
  unfold layoutLines layoutLine
  cases d.layout with
  | none => rfl
  | some l =>
    have hquote : Line.singleLine (Json.quote l.value) = Json.quote l.value :=
      String.toList_injective (toList_singleLine_quote l.value)
    rw [select_mapped, hquote]
    simp [toString]

theorem select_flatMap_functionLines (own : Bool) (fs : List Markup.FunctionDecl) :
    Line.select false (fs.flatMap (functionLines own)) = fs.map functionLine := by
  induction fs with
  | nil => rfl
  | cons f fs ih =>
    rw [List.flatMap_cons, select_append, ih, functionLines, select_mapped]
    rfl

/-- The declarations of a unit, as they stand in it. -/
def Declared.declarations (d : Declared) (bases : List BaseType) (context : TypeContext) : Declarations where
  usings := usedNamespaces bases context d
  base := d.baseName context
  model := d.modelName context
  layout := d.layout.map fun l => (l.value, d.layoutInherited)
  functions := d.importedFunctions ++ d.ownFunctions

theorem select_unitLines {key : String} {nodes : List Node} (hi : ∀ n ∈ d.inherits, Text.isDottedName n.value.toList = true)
    (hm : ∀ n ∈ d.model, Text.isDottedName n.value.toList = true) :
    Line.select false (unitLines key bases context d nodes) =
      (d.declarations bases context).lines key context.className nodes := by
  have hcode : ∀ depth text ls, Line.select false (.code depth text :: ls) = .code depth text :: Line.select false ls :=
    fun _ _ _ => rfl
  have hblank : ∀ ls, Line.select false (.blank :: ls) = .blank :: Line.select false ls := fun _ => rfl
  have husings : ∀ ns : List String, Line.select false (ns.map fun n => Line.code 0 s!"using {n};") =
      ns.map fun n => Line.code 0 s!"using {n};" := fun ns => by
    rw [Line.select, if_neg Bool.false_ne_true, List.filter_eq_self]
    intro l hl
    obtain ⟨n, -, rfl⟩ := List.mem_map.mp hl
    rfl
  unfold unitLines Declarations.lines Declared.declarations
  simp only [select_append, hcode, hblank, husings, select_headerLines hi hm, select_layoutLines,
    select_flatMap_functionLines, List.map_append, Option.map_map, List.append_assoc, List.cons_append]
  rfl

end

/-! ### The property -/

section
variable {bases : List BaseType} {context : TypeContext} {files : List Directives} {own : Directives}

theorem mem_usedNamespaces {d : Declared} {n : String} : n ∈ usedNamespaces bases context d ↔
    (∃ b ∈ baseType? bases context (d.inherits.map (·.value)), n ∈ b.requiredNamespaces) ∨ n ∈ context.namespaces ∨
      n ∈ d.usings := by
  have hbase : usedNamespaces bases context d = Text.sortedSet
      (((baseType? bases context (d.inherits.map (·.value))).map (·.requiredNamespaces)).getD [] ++ context.namespaces ++
        d.usings) := by
    unfold usedNamespaces
    cases d.inherits <;> rfl
  rw [hbase, Text.mem_sortedSet, List.mem_append, List.mem_append, or_assoc]
  cases baseType? bases context (d.inherits.map (·.value)) <;> simp

theorem merge_nearest (hfiles : ∀ ds ∈ files, (ds.functions.map (·.name)).Nodup)
    (hown : (own.functions.map (·.name)).Nodup) :
    ((Declared.merge (Imported.together files) own).declarations bases context).Nearest bases context files own where
  model := by
    refine ⟨_, counts_iff.mpr rfl, ?_⟩
    rw [← merge_model_value]
    rfl
  base := by
    refine ⟨_, counts_iff.mpr rfl, ?_, fun n => ?_⟩
    · rw [← merge_inherits_value]
      rfl
    · have husings : (Declared.merge (Imported.together files) own).usings = (Imported.together (files ++ [own])).usings := by
        rw [Imported.together_snoc]
        rfl
      rw [← merge_inherits_value, ← mem_together_usings, ← husings]
      exact mem_usedNamespaces
  sorted := Text.sortedSet_pairwise _
  layout := ⟨_, counts_iff.mpr rfl, merge_layout⟩
  function f := by
    rw [counts_iff, ← mem_functionsOf (List.forall_mem_append.mpr ⟨hfiles, List.forall_mem_singleton.mpr hown⟩),
      ← merge_functions hfiles]
    rfl
  names := by
    have := functionsOf_nodup (List.forall_mem_append.mpr ⟨hfiles, List.forall_mem_singleton.mpr hown⟩)
    rwa [← merge_functions hfiles] at this

theorem functions_distinct {sources : List TemplateSource} {documents : List Document}
    (h : List.Forall₂ (fun f d => Markup.parse f.key f.content = .ok d) sources documents) :
    ∀ ds ∈ documents.map (·.directives), (ds.functions.map (·.name)).Nodup := by
  induction h with
  | nil => nofun
  | cons hd _ ih => exact List.forall_mem_cons.mpr ⟨(Markup.parse_from hd).directives.names, ih⟩

/-- A template that can be read, and whose import files can be, has a unit, and its text declares what is nearest. -/
theorem generate_declares {g : Generator} {source : TemplateSource} {sources : List TemplateSource}
    {documents : List Document} {d : Document}
    (h : List.Forall₂ (fun f d => Markup.parse f.key f.content = .ok d) sources documents)
    (hd : Markup.parse source.key source.content = .ok d) :
    ∃ u lines, ∃ declarations : Declarations, g.generate source sources context = .ok u ∧
      u.source = Line.render (Line.select g.pragmas lines) ∧
      Line.select false lines = declarations.lines source.key context.className d.nodes ∧
      declarations.Nearest g.baseTypes context (documents.map (·.directives)) d.directives := by
  have himported := Imported.ofFiles_eq h
  have hm := Imported.proper_ofFiles himported
  have hfrom := (Markup.parse_from hd).directives
  refine ⟨⟨source.key, context.className, _, source.path⟩, unitLines source.key g.baseTypes context
    (Declared.merge (Imported.together (documents.map (·.directives))) d.directives) d.nodes, _, ?_, rfl, ?_,
    merge_nearest (functions_distinct h) hfrom.names⟩
  · rw [Generator.generate, himported, hd]
    rfl
  · exact select_unitLines (forall_or (forall_map fun e he => hfrom.inherits e he) fun n hn => (hm.inherits n hn).1)
      (forall_or (forall_map fun e he => hfrom.model e he) fun n hn => (hm.model n hn).1)

end

/-- What is found as import files of a template are the files of that name in its directories, the root's first, and never
the template itself. If they and a template can be read, a unit is generated whose text declares what is nearest, and
besides holds the sections and the code of the template alone. -/
theorem generate_nearest (s : MemorySource) (key name : String) :
    ∃ items files, s.provider.imports key name = .ok items ∧ items.mapM (·.read) = .ok files ∧
      (∀ path, TemplateKey.normalize key = .ok path → s.ImportsOf path name items) ∧
      (∀ fault, TemplateKey.normalize key = .error fault → items = []) ∧
      ∀ (source : TemplateSource) (documents : List Document) (d : Document),
        List.Forall₂ (fun f d => Markup.parse f.key f.content = .ok d) files documents →
        Markup.parse source.key source.content = .ok d → ∀ (g : Generator) (context : TypeContext),
          ∃ u lines, ∃ declarations : Declarations, g.generate source files context = .ok u ∧
            u.source = Line.render (Line.select g.pragmas lines) ∧
            Line.select false lines = declarations.lines source.key context.className d.nodes ∧
            declarations.Nearest g.baseTypes context (documents.map (·.directives)) d.directives := by
  cases hkey : TemplateKey.normalize key with
  | error fault =>
    refine ⟨[], [], MemorySource.imports_invalid hkey, rfl, nofun, fun _ _ => rfl, ?_⟩
    exact fun _ _ _ h hd _ _ => generate_declares h hd
  | ok path =>
    obtain ⟨items, hitems, himports⟩ := s.imports_importsOf name hkey
    obtain ⟨files, hfiles, -⟩ := himports.read
    refine ⟨items, files, hitems, hfiles, ?_, nofun, fun _ _ _ h hd _ _ => generate_declares h hd⟩
    rintro _ ⟨⟩
    exact himports

/-- An import file of the root. -/
def farFile : TemplateSource := ⟨"_imports", "@model Far\n@layout Main\n@functions { Mark(x) => x; }", none⟩

/-- An import file of a directory. -/
def nearFile : TemplateSource := ⟨"a/b/_imports", "@model Near\n@functions { Mark(x) => Text.Upper(x); }", none⟩

/-- A page of the same directory, which declares nothing. -/
def markPage : TemplateSource := ⟨"a/b/page", "@Mark(Model.Name)", none⟩

/-- The model, the layout and the code of the functions that a file declares. -/
def declared? (f : TemplateSource) : Option (Option String × Option String × List String) :=
  (Markup.parse f.key f.content).toOption.map fun d =>
    (d.directives.model.map (·.value), d.directives.layout.map (·.value), d.directives.functions.map (·.code))

theorem declared_nested : declared? farFile = some (some "Far", some "Main", ["x"]) ∧
    declared? nearFile = some (some "Near", none, ["Text.Upper(x)"]) ∧ declared? markPage = some (none, none, []) := by
  decide +kernel

theorem exists_of_declared? {f : TemplateSource} {model layout : Option String} {codes : List String}
    (h : declared? f = some (model, layout, codes)) : ∃ d, Markup.parse f.key f.content = .ok d ∧
      d.directives.model.map (·.value) = model ∧ d.directives.layout.map (·.value) = layout ∧
      d.directives.functions.map (·.code) = codes := by
  unfold declared? at h
  cases hd : Markup.parse f.key f.content with
  | error e =>
    rw [hd] at h
    cases h
  | ok d =>
    rw [hd] at h
    cases h
    exact ⟨d, rfl, rfl, rfl, rfl⟩

/-- The three files. -/
def nestedSource : MemorySource := ⟨[farFile, nearFile, markPage].map fun f => (f.key, f.content)⟩

theorem imports_nested : (nestedSource.provider.imports "~/a/b/page" "_imports").toOption =
    some [⟨farFile.key, .text farFile.content, none⟩, ⟨nearFile.key, .text nearFile.content, none⟩] := by
  decide +kernel

/-- The page has the model of the nearer file and, as its default one, the layout of the farther file. -/
theorem generate_nearest_markPage : ∃ u lines, ∃ declarations : Declarations,
    ({} : Generator).generate markPage [farFile, nearFile] memberPageContext = .ok u ∧ u.source = Line.render lines ∧
      declarations.model = "Near" ∧ declarations.layout = some ("Main", true) ∧
      ∃ nodes, Line.select false lines = declarations.lines markPage.key memberPageContext.className nodes := by
  obtain ⟨hfar, hnear, hpage⟩ := declared_nested
  obtain ⟨far, hfar, hfarModel, hfarLayout, -⟩ := exists_of_declared? hfar
  obtain ⟨near, hnear, hnearModel, hnearLayout, -⟩ := exists_of_declared? hnear
  obtain ⟨page, hpage, hpageModel, hpageLayout, -⟩ := exists_of_declared? hpage
  obtain ⟨items, files, hitems, hfiles, -, -, hall⟩ := generate_nearest nestedSource "~/a/b/page" "_imports"
  obtain rfl := Option.some.inj (imports_nested.symm.trans (congrArg Except.toOption hitems))
  obtain rfl : [farFile, nearFile] = files := by
    cases hfiles
    rfl
  obtain ⟨u, lines, declarations, hu, hsource, hlines, hnearest⟩ :=
    hall markPage [far, near] page (.cons hfar (.cons hnear .nil)) hpage {} memberPageContext
  refine ⟨u, lines, declarations, hu, hsource, ?_, ?_, page.nodes, hlines⟩
  · obtain ⟨m, hm, hmodel⟩ := hnearest.model
    rw [hmodel, ← counts_iff.mp hm]
    obtain ⟨d, hd, hvalue⟩ := Option.map_eq_some_iff.mp hnearModel
    simp [nearest?, List.findSome?, Option.map_eq_none_iff.mp hpageModel, hd, hvalue]
  · obtain ⟨l, hl, hlayout⟩ := hnearest.layout
    rw [hlayout, ← counts_iff.mp hl]
    obtain ⟨d, hd, hvalue⟩ := Option.map_eq_some_iff.mp hfarLayout
    simp [nearest?, List.findSome?, Option.map_eq_none_iff.mp hpageLayout, Option.map_eq_none_iff.mp hnearLayout, hd, hvalue]

end Stencil.Unit
