import Stencil.Proofs.Ir.Erasure
import Stencil.Proofs.Render.Placing
import Stencil.Proofs.Unit.Loading
import Stencil.Proofs.Unit.Marking
import Stencil.Proofs.Unit.Moving

/-! Units with pragmas and without.

A template may be generated with pragmas or without. If none of its code has a comment, both units are built or neither is,
and the second one becomes the module of the first one without places. This does not carry over to the binaries: a place
is a record of its own in a binary, so the one with places can nest too deep for its reader where the other one does not.
Where it is loaded, so is the other one, and both do the same. -/

namespace Stencil

/-! ### Loading -/

namespace Program

variable {references : List Reference} {bases : List BaseType}

theorem link_erasePlaces (m : Ir.Module) :
    link m.erasePlaces references bases = (link m references bases).map Program.erasePlaces := by
  unfold link
  rw [show m.erasePlaces.format = m.format from rfl, show m.erasePlaces.imports = m.imports from rfl,
    show m.erasePlaces.baseType = m.baseType from rfl]
  by_cases hformat : m.format ≠ Ir.formatVersion
  · rw [if_pos hformat, if_pos hformat]
    rfl
  · rw [if_neg hformat, if_neg hformat]
    cases m.imports.mapM (bindImport references) with
    | error fault => rfl
    | ok helpers => cases BaseType.find? bases m.baseType <;> rfl

/-- Where the binary of a module is loaded, so is the one without places, as the same program without places. -/
theorem load_erasePlaces {m : Ir.Module} {debug : Bool} {p : Program}
    (h : load (m.encode debug) references bases = .ok p) :
    load (m.erasePlaces.encode debug) references bases = .ok p.erasePlaces := by
  rw [load, Ir.Module.decode?_encode] at h ⊢
  split at h
  · rename_i m' hm
    split at hm
    · rename_i hnesting
      rw [if_pos (Nat.le_trans m.nesting_erasePlaces_le hnesting), Ir.Module.reread?_erasePlaces hm]
      dsimp only
      rw [link_erasePlaces, h]
      rfl
    · cases hm
  · cases h

end Program

namespace Unit

/-! ### Reading -/

/-- Of two texts whose tokens are the same but for pragmas in their places, one is read if the other one is, as the same unit
but for places. -/
theorem ofSource_relocate {on off : String} {a b : Cut} (hon : tokens? true on.toList = a)
    (hoff : tokens? true off.toList = b) (h : Loose a b) :
    (∀ t, Tree.ofSource on = .ok t →
      ∃ t', Tree.ofSource off = .ok t' ∧ t'.move nowhere = t.move nowhere ∧ t'.move id = t') ∧
    ((∃ t', Tree.ofSource off = .ok t') → ∃ t, Tree.ofSource on = .ok t) := by
  -- Both texts have the same tokens but for the pragmas, and these stand where a pragma may.
  have hrelocate : ∀ ls ls', lexemes on.toList = .ok ls → lexemes off.toList = .ok ls' →
      SameTokens (withoutPragmas ls) ls' ∧ Placed .free ls := by
    intro ls ls' hls hls'
    have ha : a.Of ls := hon.symm.trans (lexemes_eq_ok hls)
    have hb : b.Of ls' := hoff.symm.trans (lexemes_eq_ok hls')
    have hplaced : Placed .free (ls ++ []) := h.placed rfl ha trivial
    refine ⟨?_, by simpa using hplaced⟩
    have hplain := h.plain
    rw [show a = _ from ha, show b = _ from hb] at hplain
    have hfilter : (ls.map (·.token)).filter (!·.isPragma) = ls'.map (·.token) := Option.some.inj hplain
    rw [List.filter_map] at hfilter
    exact hfilter
  constructor
  · intro t ht
    obtain ⟨ls, hls, hread⟩ := Except.bind_eq_ok.mp ht
    have hplain := h.plain
    rw [← hon, lexemes_eq_ok hls] at hplain
    obtain ⟨ls', hls', -⟩ := exists_lexemes (hoff.trans hplain.symm)
    obtain ⟨hsame, hplaced⟩ := hrelocate ls ls' hls hls'
    obtain ⟨t', hread', hmove, hid⟩ := (ofLexemes_relocate hsame hplaced).1 t hread
    exact ⟨t', Except.bind_eq_ok.mpr ⟨ls', hls', hread'⟩, hmove, hid⟩
  · rintro ⟨t', ht'⟩
    obtain ⟨ls', hls', hread'⟩ := Except.bind_eq_ok.mp ht'
    have hplain := h.plain
    rw [← hoff, lexemes_eq_ok hls'] at hplain
    obtain ⟨ts, hts, -⟩ := Option.map_eq_some_iff.mp hplain
    obtain ⟨ls, hls, -⟩ := exists_lexemes (hon.trans hts)
    obtain ⟨hsame, hplaced⟩ := hrelocate ls ls' hls hls'
    obtain ⟨t, hread⟩ := (ofLexemes_relocate hsame hplaced).2 ⟨t', hread'⟩
    exact ⟨t, Except.bind_eq_ok.mpr ⟨ls, hls, hread⟩⟩

/-! ### Building -/

section
variable {options : BuildOptions} {references : List Reference}

/-- A unit without places in the template has the problems of one that is the same but for places, and becomes its module
without places. -/
theorem lower?_relocate {t t' : Tree} {options : LoweringOptions} (hmove : t'.move nowhere = t.move nowhere)
    (hid : t'.move id = t') :
    (t.lower? options references = none ∧ t'.lower? options references = none) ∨
      ∃ l l', t.lower? options references = some l ∧ t'.lower? options references = some l' ∧
        l'.compiled = l.compiled.map Ir.Module.erasePlaces ∧
        l'.problems.map (moveProblem nowhere) = l.problems.map (moveProblem nowhere) := by
  have hsame : (t'.lower? options references).map (Lowered.move nowhere) =
      (t.lower? options references).map (Lowered.move nowhere) := by
    rw [← Tree.lower?_move, ← Tree.lower?_move, hmove]
  have hself := t'.lower?_move (r := id) options references
  rw [hid] at hself
  rcases hl : t.lower? options references with _ | l <;> rcases hl' : t'.lower? options references with _ | l' <;>
    rw [hl, hl'] at hsame
  · exact .inl ⟨rfl, rfl⟩
  · cases hsame
  · cases hsame
  · rw [hl'] at hself
    have hmoved := Option.some.inj hsame
    refine .inr ⟨l, l', rfl, rfl, ?_, congrArg Lowered.problems hmoved⟩
    exact (congrArg Lowered.compiled (Option.some.inj hself)).trans (congrArg Lowered.compiled hmoved)

theorem hasErrors_eq (problems : List (SourcePos × Problem)) (binary : Option String) :
    (⟨binary, problems.map fun (pos, p) => p.diagnostic pos⟩ : BuildOutput).hasErrors = problems.any (·.2.isError) := by
  simp [BuildOutput.hasErrors, List.any_map, Function.comp_def, Problem.diagnostic, Diagnostic.isError, Problem.isError]

/-- The output of building a unit that was read. -/
theorem build_of_ofSource {source : String} {t : Tree} (h : Tree.ofSource source = .ok t) :
    build source options references = match t.lower? options.toLoweringOptions references with
      | none => failedBuild t.decl.name.pos .circularSections
      | some l => ⟨l.compiled.map (·.encode options.debug), l.problems.map fun (pos, p) => p.diagnostic pos⟩ := by
  unfold build
  generalize Tree.ofSource source = read at h
  cases h
  rfl

theorem hasErrors_failedBuild {pos : SourcePos} {p : Problem} (h : p.isError = true) :
    (failedBuild pos p).hasErrors = true := by
  simpa [failedBuild, BuildOutput.hasErrors, Problem.diagnostic, Diagnostic.isError, Problem.isError] using h

theorem any_isError_moveProblem (problems : List (SourcePos × Problem)) :
    (problems.map (moveProblem nowhere)).any (·.2.isError) = problems.any (·.2.isError) := by
  rw [List.any_map]
  rfl

/-- A unit without places in the template is built if one is built that is the same but for places, and its binary is that
of the module of the other one without places. -/
theorem build_relocate {on off : String} {t t' : Tree} (hon : Tree.ofSource on = .ok t)
    (hoff : Tree.ofSource off = .ok t') (hmove : t'.move nowhere = t.move nowhere) (hid : t'.move id = t') :
    (build on options references).hasErrors = (build off options references).hasErrors ∧
      ∀ m, (t.lower? options.toLoweringOptions references).bind (·.compiled) = some m →
        (build off options references).binary = some (m.erasePlaces.encode options.debug) := by
  rw [build_of_ofSource hon, build_of_ofSource hoff]
  obtain ⟨hl, hl'⟩ | ⟨l, l', hl, hl', hcompiled, hproblems⟩ :=
    @lower?_relocate references t t' options.toLoweringOptions hmove hid
  · rw [hl, hl']
    refine ⟨?_, nofun⟩
    rw [hasErrors_failedBuild rfl, hasErrors_failedBuild rfl]
  · rw [hl, hl']
    dsimp only
    rw [hasErrors_eq, hasErrors_eq, ← any_isError_moveProblem l.problems, ← hproblems, any_isError_moveProblem]
    refine ⟨rfl, fun m hm => ?_⟩
    rw [hcompiled, show l.compiled = some m from hm]
    rfl

end

/-! ### Generated units -/

/-- Pragmas have no say in whether a unit is generated. -/
theorem generate_unmarked {g : Generator} {source : TemplateSource} {imports : List TemplateSource}
    {context : TypeContext} {on : Generated} {imported : Imported} {d : Markup.Document}
    (himported : Imported.ofFiles imports = .ok imported) (hd : Markup.parse source.key source.content = .ok d)
    (hon : { g with pragmas := true : Generator }.generate source imports context = .ok on) :
    ∃ off, { g with pragmas := false : Generator }.generate source imports context = .ok off ∧
      on.source = Line.render (Line.select true (unitLines source.key g.baseTypes context
        (Declared.merge imported d.directives) d.nodes)) ∧
      off.source = Line.render (Line.select false (unitLines source.key g.baseTypes context
        (Declared.merge imported d.directives) d.nodes)) := by
  obtain ⟨imported', d', himported', hd', hsource⟩ := generate_eq_ok hon
  cases himported.symm.trans himported'
  cases hd.symm.trans hd'
  refine ⟨{ on with source := Line.render (Line.select false (unitLines source.key g.baseTypes context
    (Declared.merge imported d.directives) d.nodes)) }, ?_, hsource, by dsimp only⟩
  rw [Generator.generate, himported, hd] at hon ⊢
  cases hon
  rfl

theorem counted_unmarked (lines : List Line) : Counted (Line.select false lines) := by
  refine .inl fun p hp => ?_
  have hplain := (List.mem_filter.mp hp).2
  cases hplain

/-- If no code of a template has a comment, its unit with pragmas is built if and only if the one without pragmas is, and
the second module is the first one without places. Where the first binary is loaded, so is the second one, and both
templates do the same: they write the same output and register the same sections, or fail for the same reason. -/
theorem build_without_pragmas {g : Generator} {source : TemplateSource} {imports : List TemplateSource}
    {context : TypeContext} {on : Generated} {imported : Imported} {d : Markup.Document}
    (himported : Imported.ofFiles imports = .ok imported) (hd : Markup.parse source.key source.content = .ok d)
    (hon : { g with pragmas := true : Generator }.generate source imports context = .ok on)
    (hcontext : Dotted g.baseTypes context)
    (hcomment : ∀ f ∈ unitFragments (Declared.merge imported d.directives) d.nodes, hasComment .code f.text = false)
    (hcontent : source.content.length < Text.maxCount) (hunit : on.source.length ≤ Text.maxCount)
    (options : BuildOptions) (references : List Reference) :
    ∃ off, { g with pragmas := false : Generator }.generate source imports context = .ok off ∧
      (build on.source options references).hasErrors = (build off.source options references).hasErrors ∧
      ((build on.source options references).hasErrors = false → ∃ m : Ir.Module,
        (build on.source options references).binary = some (m.encode options.debug) ∧
        (build off.source options references).binary = some (m.erasePlaces.encode options.debug) ∧
        ∀ p, Program.load (m.encode options.debug) references options.baseTypes = .ok p →
          Program.load (m.erasePlaces.encode options.debug) references options.baseTypes = .ok p.erasePlaces ∧
          ∀ {σ : Type} (template : String) (className : ClassName) (modelType : ModelType) (model : Json)
            (host : Host σ),
            (CompiledTemplate.execute { template, className, modelType, program := p } model host).Unplaced
              (CompiledTemplate.execute { template, className, modelType, program := p.erasePlaces } model
                host.erasePlaces)) := by
  obtain ⟨off, hoff, honsource, hoffsource⟩ := generate_unmarked himported hd hon
  have hfrom := Markup.parse_from hd
  have hm := Imported.proper_ofFiles himported
  have hready := unit_ready hcontext hm hfrom (by rwa [String.length_toList]) hcomment
  have hmarking : Loose (unitCut true g.baseTypes context (Declared.merge imported d.directives) d.nodes)
      (unitCut false g.baseTypes context (Declared.merge imported d.directives) d.nodes) :=
    unitCut_marking fun f hf => Enclosed.unmarked ⟨closed_of_mem_unitFragments hm hfrom hf, hcomment f hf⟩
  rw [honsource] at hunit
  -- Both units are what their cuts spell, and the cuts differ in pragmas only.
  have hontokens := unit_tokens hready (counted_of_length hunit)
  have hofftokens := unit_tokens hready
    (counted_unmarked (unitLines source.key g.baseTypes context (Declared.merge imported d.directives) d.nodes))
  rw [← honsource] at hontokens
  rw [← hoffsource] at hofftokens
  obtain ⟨hforth, hback⟩ := ofSource_relocate hontokens hofftokens hmarking
  refine ⟨off, hoff, ?_, fun hok => ?_⟩
  · -- One of the units is read if and only if the other one is, and then both have the same problems.
    rcases ht : Tree.ofSource on.source with fault | t
    · rcases ht' : Tree.ofSource off.source with fault' | t'
      · rw [build, build, ht, ht']
        exact (hasErrors_failedBuild rfl).trans (hasErrors_failedBuild rfl).symm
      · obtain ⟨t, hread⟩ := hback ⟨t', ht'⟩
        cases ht.symm.trans hread
    · obtain ⟨t', ht', hmove, hid⟩ := hforth t ht
      exact (build_relocate ht ht' hmove hid).1
  · obtain ⟨t, lowered, functions, body, s, ht, hlower, -, -, hcompiled, hbinary⟩ := build_eq_some hok
    obtain ⟨t', ht', hmove, hid⟩ := hforth t ht
    refine ⟨_, hbinary, (build_relocate ht ht' hmove hid).2 _ (by rw [hlower]; exact hcompiled), fun p hp => ?_⟩
    refine ⟨Program.load_erasePlaces hp, fun template className modelType model host => ?_⟩
    exact CompiledTemplate.execute_unplaced { template, className, modelType, program := p } model host

/-- The page is built with pragmas and without, and both binaries are loaded. -/
theorem build_without_pragmas_memberPage : ∃ (on off : Generated) (m : Ir.Module) (p : Program),
    ({} : Generator).generate memberPage [] memberPageContext = .ok on ∧
      ({ pragmas := false } : Generator).generate memberPage [] memberPageContext = .ok off ∧
      (build on.source {} []).binary = some (m.encode false) ∧
      (build off.source {} []).binary = some (m.erasePlaces.encode false) ∧
      Program.load (m.encode false) [] BaseType.builtins = .ok p ∧
      Program.load (m.erasePlaces.encode false) [] BaseType.builtins = .ok p.erasePlaces := by
  obtain ⟨hgen, hparse⟩ := memberPage_generates
  obtain ⟨on, hon, hlength⟩ := exists_of_toOption_any hgen
  obtain ⟨d, hd, -⟩ := exists_of_toOption_any hparse
  have hcomment : ∀ f ∈ unitFragments (Declared.merge {} d.directives) d.nodes, hasComment .code f.text = false := by
    intro f hf
    rw [memberPage_fragments hd f hf]
    rfl
  have hbuilt : (({} : Generator).generate memberPage [] memberPageContext).toOption.any (fun u =>
      !(build u.source {} []).hasErrors && (Tree.ofSource u.source).toOption.any fun t =>
        (t.lower? {} []).any fun l => l.compiled.any fun m => decide m.Loadable) = true := by
    decide +kernel
  obtain ⟨on', hon', hok⟩ := exists_of_toOption_any hbuilt
  cases hon.symm.trans hon'
  obtain ⟨herrors, hloadable⟩ := Bool.and_eq_true_iff.mp hok
  have herrors : (build on.source {} []).hasErrors = false := by simpa using herrors
  obtain ⟨t, l, m, ht, hl, hm, hbinary, hload⟩ := load_of_build (by decide) herrors
  obtain ⟨t', ht', hloadable⟩ := exists_of_toOption_any hloadable
  cases ht.symm.trans ht'
  rw [show t.lower? {} [] = some l from hl, Option.any_some, hm, Option.any_some] at hloadable
  rw [if_pos (of_decide_eq_true hloadable)] at hload
  obtain ⟨off, hoff, -, hmodules⟩ := build_without_pragmas (g := {}) rfl hd hon memberPageContext_dotted hcomment
    (by decide +kernel) (Nat.le_trans (length_le_utf8ByteSize _) (of_decide_eq_true hlength)) {} []
  obtain ⟨m', honbinary, hoffbinary, hboth⟩ := hmodules herrors
  obtain ⟨p, hp⟩ := hload
  rw [Option.some.inj (hbinary.symm.trans honbinary)] at hp
  exact ⟨on, off, m', p, hon, hoff, honbinary, hoffbinary, hp, (hboth p hp).1⟩

end Unit

end Stencil
