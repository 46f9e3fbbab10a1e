import Stencil.Proofs.Render.Locating
import Stencil.Proofs.Unit.Containment
import Stencil.Proofs.Unit.Loaded

/-! Failures are reported where the code that fails stands in the template.

With pragmas on, the place of a node goes from the template through the unit to the statements of the loaded program. So a
run of the template's body, or of a section, reports a failure of its own code at the place of this code, but for the
conditions of an `ifElse`, which have one place for all. -/

namespace Stencil

namespace Unit

open Markup (Node Fragment Document)

/-! ### The sections of a generated unit -/

/-- The name of the section that a node declares. -/
def sectionName? : Node → Option String
  | .sectionDef name _ _ => some name
  | _ => none

/-- The name of the section that a member declares. -/
def Member.sectionName? : Member → Option String
  | .sectionDecl d => some d.name.name
  | _ => none

/-- The name of the section that a part of a document declares. -/
def Part.sectionName? : Part → Option String
  | sectionDef name _ => some name
  | _ => none

namespace Outline

/-- A member only adds problems. -/
theorem problems_add (o : Outline) (m : Member) : o.problems ⊆ (o.add m).problems := by
  cases m <;> simp only [add, blame] <;> split <;> simp

theorem problems_foldl (o : Outline) (members : List Member) : o.problems ⊆ (members.foldl add o).problems := by
  induction members generalizing o with
  | nil => exact List.Subset.refl _
  | cons m ms ih => exact List.Subset.trans (problems_add o m) (ih (o.add m))

theorem sections_add (o : Outline) {m : Member} (h : m.sectionName? = none) : (o.add m).sections = o.sections := by
  cases m with
  | sectionDecl decl => cases h
  | layout | function | execute => simp only [add, blame]; split <;> rfl

/-- Without errors, no section is declared twice. -/
theorem sectionNames_nodup {members : List Member} {o : Outline}
    (hclean : ∀ p ∈ (members.foldl add o).problems, p.2.isError = false) (ho : (o.sections.map (·.name.name)).Nodup) :
    (o.sections.map (·.name.name) ++ members.filterMap Member.sectionName?).Nodup := by
  -- A name that comes twice would leave a problem, and no later member takes a problem away.
  induction members generalizing o with
  | nil => simpa using ho
  | cons m ms ih =>
    cases hm : m.sectionName? with
    | none =>
      rw [List.filterMap_cons_none hm, ← sections_add o hm]
      exact ih hclean (sections_add o hm ▸ ho)
    | some name =>
      obtain ⟨decl, rfl, rfl⟩ : ∃ decl, m = .sectionDecl decl ∧ decl.name.name = name := by
        cases m with
        | sectionDecl decl => exact ⟨decl, rfl, Option.some.inj hm⟩
        | layout | function | execute => cases hm
      rw [List.filterMap_cons_some hm]
      by_cases htwice : o.sections.any (·.name.name == decl.name.name) = true
      · have hproblem : (decl.name.pos, Problem.sectionTwice decl.name.name) ∈ (o.add (.sectionDecl decl)).problems := by
          simp [add, blame, htwice]
        cases hclean _ (problems_foldl _ ms hproblem)
      · have hadd : (o.add (.sectionDecl decl)).sections = o.sections ++ [decl] := by
          rw [add, if_neg htwice]
        -- No section before has the name, so the names stay distinct.
        have hnew : decl.name.name ∉ o.sections.map (·.name.name) := by
          simpa [List.mem_map] using htwice
        have hnodup : ((o.add (.sectionDecl decl)).sections.map (·.name.name)).Nodup := by
          rw [hadd, List.map_append]
          refine List.nodup_append.mpr ⟨ho, List.nodup_singleton _, fun a ha b hb => ?_⟩
          rintro rfl
          cases List.mem_singleton.mp hb
          exact hnew ha
        have hrest := ih hclean hnodup
        rwa [hadd, List.map_append, List.append_assoc] at hrest

end Outline

section
variable {Means : List Char → Expr → Prop} {place : SourcePos → Option SourcePos}

mutual

/-- What mirrors a node inside of another one registers no section. -/
theorem MirrorStmt.not_registers : {n : Node} → {s : Stmt} → n.Proper false → MirrorStmt Means place n s → s.registers = false
  | .text _ _, _, _, .text => rfl
  | .expr _ _, _, _, .expr _ => rfl
  | .var _ _ _, _, _, .var _ => rfl
  | .ifElse _ none, _, hp, .ifOnly hb => by
    rw [Stmt.registers, MirrorBranches.not_registers hp.2 hb]
    rfl
  | .ifElse _ (some _), _, hp, .ifElse hb ho => by
    rw [Stmt.registers, MirrorBranches.not_registers hp.2.1 hb, registersBlock, MirrorStmts.not_registers hp.2.2 ho]
    rfl
  | .forEach _ _ _ _, _, hp, .forEach _ hb => MirrorStmts.not_registers hp.2 hb
  | .sectionDef _ _ _, _, hp, .sectionDef => absurd hp.1 Bool.false_ne_true

theorem MirrorBranches.not_registers : {bs : List Markup.Branch} → {bs' : List Branch} → Markup.Branch.ProperAll bs →
    MirrorBranches Means place bs bs' → registersBranches bs' = false
  | [], _, _, .nil => rfl
  | .mk _ _ _ :: _, _, hp, .cons _ hb hr => by
    rw [registersBranches, MirrorStmts.not_registers hp.1 hb, MirrorBranches.not_registers hp.2 hr]
    rfl

theorem MirrorStmts.not_registers : {ns : List Node} → {ss : List Stmt} → Node.ProperAll false ns →
    MirrorStmts Means place ns ss → registersAll ss = false
  | [], _, _, .nil => rfl
  | _ :: _, _, hp, .cons hn hs => by
    rw [registersAll, MirrorStmt.not_registers hp.1 hn, MirrorStmts.not_registers hp.2 hs]
    rfl

end

/-- A node of a document that declares no section could stand inside of another one. -/
theorem proper_inside {n : Node} (hp : n.Proper true) (hn : sectionName? n = none) : n.Proper false := by
  cases n with
  | sectionDef => cases hn
  | ifElse branches otherwise => cases otherwise <;> exact hp
  | text | expr | var | forEach => exact hp

/-- The sections that the statements of a body register are those that its nodes declare. -/
theorem MirrorStmts.registered {ns : List Node} {ss : List Stmt} (hp : Node.ProperAll true ns)
    (hm : MirrorStmts Means place ns ss) :
    (∀ s ∈ ss, s.registers = true → ∃ n, s = .defineSection n) ∧ Unit.registered ss = ns.filterMap sectionName? := by
  induction ns generalizing ss with
  | nil =>
    cases hm
    exact ⟨nofun, rfl⟩
  | cons n ns ih =>
    cases hm with
    | @cons _ _ s ss hn hs =>
      obtain ⟨hdirect, hnames⟩ := ih hp.2 hs
      cases hname : sectionName? n with
      | none =>
        have hflat := MirrorStmt.not_registers (proper_inside hp.1 hname) hn
        rw [List.filterMap_cons_none hname, registered_cons hflat, hnames]
        refine ⟨fun s' hmem hr => ?_, rfl⟩
        rcases List.mem_cons.mp hmem with rfl | hmem
        · rw [hflat] at hr
          cases hr
        · exact hdirect s' hmem hr
      | some name =>
        cases hn with
        | @sectionDef _ _ p =>
          rw [List.filterMap_cons_some hname, ← hnames]
          cases hname
          refine ⟨fun s' hmem hr => ?_, rfl⟩
          rcases List.mem_cons.mp hmem with rfl | hmem
          · exact ⟨_, rfl⟩
          · exact hdirect s' hmem hr
        | text | expr | var | ifOnly | ifElse | forEach => cases hname

/-- The members of a unit declare the sections that the nodes of the document declare. -/
theorem sectionNames_eq {d : Declared} {nodes : List Node} {members : List Member} {pragmas : Bool}
    (h : List.Forall₂ (MirrorMember Means pragmas) (parts d nodes) members) :
    members.filterMap Member.sectionName? = nodes.filterMap sectionName? := by
  have hparts : members.filterMap Member.sectionName? = (parts d nodes).filterMap Part.sectionName? := by
    generalize parts d nodes = ps at h
    induction h with
    | nil => rfl
    | cons hm _ ih =>
      rw [List.filterMap_cons, List.filterMap_cons, ih]
      cases hm <;> rfl
  have hnode : ∀ n : Node, (sectionPart? n).bind Part.sectionName? = sectionName? n := by
    intro n
    cases n <;> rfl
  have hlayout : (d.layout.map fun l => Part.layout l.pos d.layoutInherited l.value).toList.filterMap Part.sectionName? = [] := by
    cases d.layout <;> rfl
  have hfunctions : ∀ own (fs : List Markup.FunctionDecl), (fs.map (Part.function own)).filterMap Part.sectionName? = [] :=
    fun own fs => by simp [Part.sectionName?, Function.comp_def]
  rw [hparts, parts, List.filterMap_append, List.filterMap_append, List.filterMap_append, List.filterMap_append, hlayout,
    hfunctions, hfunctions, List.filterMap_filterMap, funext hnode]
  exact List.append_nil _

theorem not_blank_of_sectionName {n : Node} {name : String} (hp : n.Proper true) (hn : sectionName? n = some name) :
    Text.allBlank name.toList = false := by
  cases n with
  | sectionDef name' pos body =>
    cases hn
    obtain ⟨-, hname, -⟩ := hp
    cases hchars : name.toList with
    | nil =>
      rw [hchars] at hname
      cases hname
    | cons c cs =>
      have hc := Text.not_blank_of_isNameChar (Text.isNameChar_of_isName hname (hchars ▸ List.mem_cons_self))
      simp [Text.allBlank, hc]
  | text | expr | var | ifElse | forEach => cases hn

/-- The unit of a document that is lowered without errors registers its sections directly. -/
theorem MirrorTree.registersDirectly {pragmas : Bool} {bases : List BaseType} {context : TypeContext} {d : Declared}
    {nodes : List Node} {t : Tree} (h : MirrorTree Means pragmas bases context d nodes t) (hp : Node.ProperAll true nodes)
    (hclean : ∀ p ∈ t.outline.problems, p.2.isError = false) : t.RegistersDirectly := by
  have hnodup := Outline.sectionNames_nodup hclean List.nodup_nil
  rw [sectionNames_eq h.members] at hnodup
  -- The body has the names of all sections, once each, and nothing registers one from inside of a block or a section.
  intro m hm
  obtain ⟨p, hpart, hmirror⟩ := exists_of_forall₂_mem h.members hm
  cases hmirror with
  | layout | function => trivial
  | sectionDef hb => exact MirrorStmts.not_registers (parts_proper hp hpart) hb
  | @execute body _ _ hb =>
    have hbody : body = nodes := by
      rcases mem_parts hpart with ⟨_, _, h⟩ | ⟨_, _, h⟩ | ⟨_, _, h⟩ | ⟨_, _, _, _, h⟩ | h <;> cases h
      rfl
    subst hbody
    obtain ⟨hdirect, hnames⟩ := MirrorStmts.registered hp hb
    refine ⟨hdirect, hnames ▸ hnodup, fun name hname => ?_⟩
    rw [hnames] at hname
    obtain ⟨n, hn, hsome⟩ := List.mem_filterMap.mp hname
    exact not_blank_of_sectionName (proper_of_mem hp hn) hsome

/-! ### What nodes become -/

/-- Under some locals, the code is an expression that stands for the one of a module. -/
def Scope.Stands (sc : Scope) (k : Linkage) (code : List Char) (e : Ir.Expr) : Prop :=
  ∃ locals e₀, SpelledInUnit code e₀ ∧ Resolves sc k locals e₀ e

variable {sc : Scope} {k : Linkage}

mutual

/-- What stands for a statement that mirrors a node is what becomes of the node. -/
theorem becomes_of_mirror {locals : List String} : {n : Node} → {s : Stmt} → {s' : Ir.Stmt} →
    MirrorStmt SpelledInUnit (placeOf true) n s → ResolvesStmt sc k locals s s' → Becomes (sc.Stands k) n s'
  | _, _, _, .text, .write _ => .text
  | _, _, _, .expr he, .emit hr => .expr ⟨_, _, he, hr⟩
  | _, _, _, .var he, .var hr => .var ⟨_, _, he, hr⟩
  | _, _, _, .ifOnly hb, .ifElse hr .none => .ifElse (becomesBranches_of_mirror hb hr) .none
  | _, _, _, .ifElse hb ho, .ifElse hr (.some hro) =>
    .ifElse (becomesBranches_of_mirror hb hr) (.some (becomesAll_of_mirror ho hro))
  | _, _, _, .forEach he hb, .forEach hr hrb => .forEach ⟨_, _, he, hr⟩ (becomesAll_of_mirror hb hrb)

theorem becomesBranches_of_mirror {locals : List String} : {bs : List Markup.Branch} → {bs' : List Branch} →
    {bs'' : List Ir.Branch} → MirrorBranches SpelledInUnit (placeOf true) bs bs' → ResolvesBranches sc k locals bs' bs'' →
    BecomesBranches (sc.Stands k) bs bs''
  | _, _, _, .nil, .nil => .nil
  | _, _, _, .cons he hb hr, .cons hc hrb hrr =>
    .cons ⟨_, _, he, hc⟩ (becomesAll_of_mirror hb hrb) (becomesBranches_of_mirror hr hrr)

theorem becomesAll_of_mirror {locals : List String} : {ns : List Node} → {ss : List Stmt} → {ss' : List Ir.Stmt} →
    MirrorStmts SpelledInUnit (placeOf true) ns ss → ResolvesStmts sc k locals ss ss' → BecomesAll (sc.Stands k) ns ss'
  | _, _, _, .nil, .nil => .nil
  | _, _, _, .cons hn hs, .cons hr hrs => .cons (becomes_of_mirror hn hr) (becomesAll_of_mirror hs hrs)

end

/-- The same for the body of a unit, which registers sections. -/
theorem becomesAll_of_body {locals : List String} {ns : List Node} {ss : List Stmt} {ss' : List Ir.Stmt}
    {regs : List (Nat × List String)} (hm : MirrorStmts SpelledInUnit (placeOf true) ns ss)
    (hr : ResolvesBody sc k locals ss ss' regs) : BecomesAll (sc.Stands k) ns ss' := by
  induction hr generalizing ns with
  | nil =>
    cases hm
    exact .nil
  | plain hs _ ih =>
    cases hm with
    | cons hn hrest => exact .cons (becomes_of_mirror hn hs) (ih hrest)
  | register _ _ ih =>
    cases hm with
    | cons hn hrest =>
      cases hn
      exact .cons .sectionDef (ih hrest)

end

/-! ### What the program of a document is -/

/-- A unit that is read mirrors the document that it is generated from. -/
theorem mirrors_of_read {pragmas : Bool} {key : String} {bases : List BaseType} {context : TypeContext} {m : Imported}
    {d : Document} {text : List Char} {tree : Tree} (hcontext : Dotted bases context) (hm : m.Proper) (hd : d.From text)
    (hlength : text.length < Text.maxCount)
    (hcomment : ∀ f ∈ unitFragments (Declared.merge m d.directives) d.nodes, hasComment .code f.text = false)
    (hwritten : ∀ code ∈ writtenAll d.nodes, Markup.findTopLevel code.toList [';'] = none)
    (hcounted : Counted (Line.select pragmas (unitLines key bases context (Declared.merge m d.directives) d.nodes)))
    (htree : Tree.ofSource (Line.render (Line.select pragmas (unitLines key bases context (Declared.merge m d.directives)
      d.nodes))) = .ok tree) :
    MirrorTree SpelledInUnit pragmas bases context (Declared.merge m d.directives) d.nodes tree := by
  obtain ⟨ls, hls, hread⟩ := Except.bind_eq_ok.mp htree
  have hcut : (unitCut pragmas bases context (Declared.merge m d.directives) d.nodes).Of ls :=
    (unit_tokens (unit_ready hcontext hm hd hlength hcomment) hcounted).symm.trans (lexemes_eq_ok hls)
  have hsealed : ∀ code ∈ writtenAll d.nodes, Markup.Sealed code.toList := by
    intro code hcode
    obtain ⟨f, hf, heq⟩ := writtenAll_subset d.nodes code hcode
    exact Markup.sealed_of_findTopLevel (heq ▸ (hd.nodes.fragments f hf).closed) (hwritten code hcode)
  have hkept : ∀ p ∈ parts (Declared.merge m d.directives) d.nodes, p.Kept := fun p =>
    parts_kept (fun f hf => ⟨closed_of_mem_unitFragments hm hd hf, hcomment f hf⟩) hsealed
      fun f hf => (declared_functions hm hd f hf).2
  obtain ⟨ps, _, hframe, hps, -⟩ := @framed_of_unitCut SpelledInUnit _ _ _ _ _ _ hcut
  obtain ⟨n, e, r, hn, -, hmembers⟩ := hframe.members_read hread
  have hyields := parts_yield (fun p => parts_proper hd.nodes.proper) hkept hps hn hmembers
  obtain ⟨tree', hunitls, hmirror⟩ := unit_marked (fun p => parts_proper hd.nodes.proper) hyields hcut
  cases hread.symm.trans hunitls.reads
  exact hmirror

/-- The program of a unit that is built without errors realizes it, if the unit registers its sections directly. -/
theorem realizes_of_build {source : String} {options : BuildOptions} {references : List Reference} {binary : String}
    {p : Program} (hspaces : (references.map (·.space)).Nodup) (hbuild : (build source options references).hasErrors = false)
    (hbinary : (build source options references).binary = some binary)
    (hload : Program.load binary references options.baseTypes = .ok p) :
    ∃ tree, Tree.ofSource source = .ok tree ∧ (∀ p ∈ tree.outline.problems, p.2.isError = false) ∧
      (tree.RegistersDirectly → ∃ execute, tree.outline.execute = some execute ∧
        Realizes (tree.scope options.toLoweringOptions references) (.loaded p.helpers) execute p.module) := by
  obtain ⟨tree, -, functions, body, found, htree, -, hlower, hclean, -, hencoded⟩ := build_eq_some hbuild
  have hgrows := grows_lowerOutline _ _ _ _ _ hlower
  refine ⟨tree, htree, fun p hp => hclean p (hgrows.problems.subset (List.mem_append_right _ hp)), fun hshape => ?_⟩
  obtain ⟨execute, hexecute, -, hrealizes⟩ := realizes_of_clean hshape hlower hclean
  obtain rfl := Option.some.inj (hbinary.symm.trans hencoded)
  obtain ⟨hreread, hhelpers⟩ := (linkable_of_clean hlower hclean).of_load hspaces hload
  exact ⟨execute, hexecute, hrealizes.loaded hspaces hreread hhelpers⟩

variable {sc : Scope} {k : Linkage} {bases : List BaseType} {context : TypeContext} {d : Declared} {nodes : List Node}
  {tree : Tree} {m : Ir.Module}

/-- The body of a module is what becomes of the document's nodes. -/
theorem MirrorTree.becomes_body {execute : List Stmt}
    (h : MirrorTree SpelledInUnit true bases context d nodes tree) (hexecute : tree.outline.execute = some execute)
    (hr : Realizes sc k execute m) : BecomesAll (sc.Stands k) nodes m.body := by
  obtain ⟨regs, hregs, -⟩ := hr.body
  obtain ⟨pos, hmem⟩ := (Outline.mem_execute hexecute).resolve_left nofun
  obtain ⟨p, hpart, hmirror⟩ := exists_of_forall₂_mem h.members hmem
  cases hmirror with
  | execute hb =>
    rcases mem_parts hpart with ⟨_, _, h⟩ | ⟨_, _, h⟩ | ⟨_, _, h⟩ | ⟨_, _, _, _, h⟩ | h <;> cases h
    exact becomesAll_of_body hb hregs

/-- Each section of a module is what becomes of a section of the document with its name. -/
theorem MirrorTree.becomes_section {execute : List Stmt} (hsc : sc.sections = tree.outline.sections)
    (h : MirrorTree SpelledInUnit true bases context d nodes tree) (hr : Realizes sc k execute m) {s : Ir.Section}
    (hs : s ∈ m.sections) :
    ∃ pos body, .sectionDef s.name pos body ∈ nodes ∧ BecomesAll (sc.Stands k) body s.body := by
  obtain ⟨index, hlt, rfl⟩ := List.getElem_of_mem hs
  obtain ⟨locals, decl, body, hdecl, hsection, hbody⟩ := hr.sections index hlt
  rw [List.getElem?_eq_getElem hlt, Option.some.injEq] at hsection
  have hmem : .sectionDecl decl ∈ tree.decl.members :=
    (Outline.mem_sections (hsc ▸ List.mem_of_getElem? hdecl)).resolve_left List.not_mem_nil
  obtain ⟨p, hpart, hmirror⟩ := exists_of_forall₂_mem h.members hmem
  cases hmirror with
  | sectionDef hb =>
    rcases mem_parts hpart with ⟨_, _, h⟩ | ⟨_, _, h⟩ | ⟨_, _, h⟩ | ⟨name, pos, nodes', hnode, h⟩ | h <;> cases h
    rw [hsection]
    exact ⟨pos, _, hnode, becomesAll_of_mirror hb hbody⟩

/-! ### Where failures are reported -/

/-- If a unit that is generated with pragmas is built without errors and the program is loaded, then in every render the
template's body and each of its sections report a failure of their code at its place in the template: the start of the code,
or of the first condition for the later ones of an `ifElse`. -/
theorem failures_located {g : Generator} {source : TemplateSource} {imports : List TemplateSource} {context : TypeContext}
    {u : Generated} {imported : Imported} {d : Document} (himported : Imported.ofFiles imports = .ok imported)
    (hd : Markup.parse source.key source.content = .ok d) (hgen : g.generate source imports context = .ok u)
    (hpragmas : g.pragmas = true) (hcontext : Dotted g.baseTypes context)
    (hcomment : ∀ f ∈ unitFragments (Declared.merge imported d.directives) d.nodes, hasComment .code f.text = false)
    (hwritten : ∀ code ∈ writtenAll d.nodes, Markup.findTopLevel code.toList [';'] = none)
    (hcontent : source.content.length < Text.maxCount) (hunit : u.source.length ≤ Text.maxCount)
    {options : BuildOptions} {references : List Reference} {binary : String} {p : Program}
    (hspaces : (references.map (·.space)).Nodup) (hbuild : (build u.source options references).hasErrors = false)
    (hbinary : (build u.source options references).binary = some binary)
    (hload : Program.load binary references options.baseTypes = .ok p) :
    (∀ f ∈ Node.fragmentsAll d.nodes, f.At source.content.toList) ∧
    ∃ tree, Tree.ofSource u.source = .ok tree ∧
      ∀ t : CompiledTemplate, t.program = p →
        (∀ {σ : Type} (model : Json) (host : Host σ) (scene : Scene σ),
          let m : Machine σ := ⟨t, model, host, renderSectionTo host scene.context.depth⟩
          t.execute model host scene = m.output [] t.module.body scene ∧
            m.Reports ((tree.scope options.toLoweringOptions references).Stands (.loaded p.helpers)) d.nodes t.module.body []
              scene) ∧
        ∀ (a : Action) (s : Ir.Section), a.compiled = t → a.section? = some s →
          ∃ pos body, .sectionDef s.name pos body ∈ d.nodes ∧
            ∀ {σ : Type} (host : Host σ) (renderSection : String → Execution σ (Option String)) (scene : Scene σ),
              let m : Machine σ := ⟨t, a.model, host, renderSection⟩
              a.renderWith host renderSection scene = m.output a.locals s.body scene ∧
                m.Reports ((tree.scope options.toLoweringOptions references).Stands (.loaded p.helpers)) body s.body a.locals
                  scene := by
  obtain ⟨imported', d', himported', hd', hsource⟩ := generate_eq_ok hgen
  cases himported.symm.trans himported'
  cases hd.symm.trans hd'
  rw [hpragmas] at hsource
  have hlength : source.content.toList.length < Text.maxCount := String.length_toList ▸ hcontent
  have hfrom := Markup.parse_from hd
  have hm := Imported.proper_ofFiles himported
  obtain ⟨tree, htree, hclean, hrealizes⟩ := realizes_of_build hspaces hbuild hbinary hload
  have hmirror : MirrorTree SpelledInUnit true g.baseTypes context (Declared.merge imported d.directives) d.nodes tree := by
    rw [hsource] at hunit htree
    exact mirrors_of_read hcontext hm hfrom hlength hcomment hwritten (counted_of_length hunit) htree
  obtain ⟨execute, hexecute, hrealizes⟩ := hrealizes (hmirror.registersDirectly hfrom.nodes.proper hclean)
  refine ⟨fun f hf => (hfrom.nodes.fragments f hf).stands, tree, htree, ?_⟩
  rintro t rfl
  refine ⟨fun model host scene => ?_, ?_⟩
  · -- The template's own code comes from its nodes.
    have hbecomes := hmirror.becomes_body hexecute hrealizes
    exact ⟨t.execute_run model host scene, Machine.reports_of_becomes _ hbecomes [] scene⟩
  · -- The code of a section comes from the nodes of one with its name.
    rintro a s rfl hs
    have hmem : s ∈ a.compiled.module.sections := List.mem_of_getElem? hs
    obtain ⟨pos, body, hnode, hbecomes⟩ := hmirror.becomes_section rfl hrealizes hmem
    refine ⟨pos, body, hnode, fun host renderSection scene => ⟨?_, Machine.reports_of_becomes _ hbecomes a.locals scene⟩⟩
    rw [Action.renderWith, hs]

theorem memberPage_nodes : (Markup.parse memberPage.key memberPage.content).toOption.any (fun d =>
    match d.nodes with
    | [.text _ _, .expr code pos] => code == "Model.Name" && pos == ⟨2, 5⟩
    | _ => false) = true := by
  decide +kernel

theorem memberPage_built : (({} : Generator).generate memberPage [] memberPageContext).toOption.any (fun u =>
    !(build u.source {} []).hasErrors && (Tree.ofSource u.source).toOption.any fun t =>
      (t.lower? {} []).any fun l => l.compiled.any fun m => decide m.Loadable) = true := by
  decide +kernel

/-- Every failure of the page is one of its only code, and is reported where this code stands. -/
theorem failures_located_memberPage : ∃ (u : Generated) (binary : String) (p : Program),
    ({} : Generator).generate memberPage [] memberPageContext = .ok u ∧ (build u.source {} []).binary = some binary ∧
      Program.load binary [] BaseType.builtins = .ok p ∧
      ∀ (t : CompiledTemplate), t.program = p → ∀ {σ : Type} (model : Json) (host : Host σ) (scene : Scene σ) (h : Halt),
        (t.execute model host scene).1 = .error h → ∃ f : Stencil.Fault, h = f.halt t.template (some ⟨2, 5⟩) := by
  obtain ⟨u, hu, hlength⟩ := exists_of_toOption_any memberPage_generates.1
  obtain ⟨u', hu', hbuilt⟩ := exists_of_toOption_any memberPage_built
  cases hu.symm.trans hu'
  obtain ⟨herrors, hloadable⟩ := Bool.and_eq_true_iff.mp hbuilt
  have herrors : (build u.source {} []).hasErrors = false := by simpa using herrors
  obtain ⟨t, l, m, ht, hl, hm, hbinary, hload⟩ := load_of_build (by decide) herrors
  obtain ⟨t', ht', hloadable⟩ := exists_of_toOption_any hloadable
  cases ht.symm.trans ht'
  rw [show t.lower? {} [] = some l from hl, Option.any_some, hm, Option.any_some] at hloadable
  rw [if_pos (of_decide_eq_true hloadable)] at hload
  obtain ⟨p, hload⟩ := hload
  obtain ⟨d, hd, hnodes⟩ := exists_of_toOption_any memberPage_nodes
  have hcomment : ∀ f ∈ unitFragments (Declared.merge {} d.directives) d.nodes, hasComment .code f.text = false := by
    intro f hf
    rw [memberPage_fragments hd f hf]
    rfl
  have hwritten : ∀ code ∈ writtenAll d.nodes, Markup.findTopLevel code.toList [';'] = none := by
    intro code hmem
    obtain ⟨f, hf, htext⟩ := writtenAll_subset d.nodes code hmem
    rw [← htext, memberPage_fragments hd f (List.mem_append_right _ hf)]
    rfl
  obtain ⟨-, tree, -, hall⟩ := failures_located rfl hd hu rfl memberPageContext_dotted hcomment hwritten (by decide +kernel)
    (Nat.le_trans (length_le_utf8ByteSize _) (of_decide_eq_true hlength)) (by decide) herrors hbinary hload
  refine ⟨u, _, p, hu, hbinary, hload, fun t ht σ model host scene h hfails => ?_⟩
  obtain ⟨hexecute, hreports⟩ := (hall t ht).1 model host scene
  rw [hexecute] at hfails
  have hblames := hreports.blames h hfails
  have hbecomes := hreports.becomes
  split at hnodes
  · rename_i text pos code pos' hshape
    obtain ⟨-, hpos⟩ := Bool.and_eq_true_iff.mp hnodes
    obtain rfl : pos' = ⟨2, 5⟩ := by simpa using hpos
    rw [hshape] at hblames hbecomes
    generalize t.module.body = ss at hblames hbecomes
    cases hbecomes with
    | cons hfirst hrest =>
      cases hfirst
      cases hrest with
      | cons hsecond hnone =>
        cases hsecond
        cases hnone
        cases hblames with
        | registering hr => cases hr
        | @code a f hcomes _ =>
          refine ⟨f, ?_⟩
          cases hcomes with
          | later _ hcomes =>
            cases hcomes with
            | later _ hcomes => cases hcomes
            | expr => rfl
  · cases hnodes

end Unit

end Stencil
