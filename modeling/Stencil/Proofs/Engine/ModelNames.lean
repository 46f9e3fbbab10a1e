import Stencil.Proofs.Engine.LiteralText

/-! Which names a model type can have.

The name of a model type is any text, and it stands in the header of the generated class as it is. So a template that is
literal text runs under a model type only if the name can be read there; otherwise the unit is not built. The name decides
nothing else: a unit that is read writes the text, whatever the name is. -/

namespace Stencil

namespace Unit

/-- A unit that cannot be read is not built, and why it cannot is all that is said about it. -/
theorem build_unreadable {source : String} {pos : SourcePos} {fault : Fault} (h : Tree.ofSource source = .error (pos, fault))
    (options : BuildOptions) (references : List Reference) :
    build source options references = failedBuild pos (.malformed fault) := by
  unfold build
  rw [h]

end Unit

section
variable {base : BaseType} {sources : SourceProvider} {s : String} {modelType : ModelType}

/-- The unit of the template of a text, if it is read, says the same for every model type. -/
theorem tree_literalTemplate (hbase : base ∈ BaseType.builtins) (pragmas : Bool) (key : String) (pos : SourcePos)
    (className : ClassName) {t : Unit.Tree} (h : Unit.Tree.ofSource (Unit.Line.render (Unit.textLines pragmas key
      (Markup.textRuns s) pos BaseType.builtins { plainContext base className with modelType })) = .ok t) :
    Unit.ReadsAs modelType.name t.decl.model.name ∧ t.space = some Unit.unitNamespace ∧
      t.usings.map (·.name) = Unit.usedNamespaces BaseType.builtins (plainContext base className) .nothing ∧
      t.decl.name.name = className.text ∧ t.decl.base.name = base.name ∧
      ∃ p, t.decl.members = [.execute ((Markup.textRuns s).map .write) p] := by
  have hname := Unit.readsAs_of_read_texts (m := .dynamic) pragmas key _ pos (dotted_builtin hbase className) h
  obtain ⟨t', htree, hmirror⟩ := Unit.read_texts (m := .dynamic) pragmas key _ pos (dotted_builtin hbase className) hname
  cases h.symm.trans htree
  exact ⟨hname, hmirror.space, hmirror.usings, hmirror.name, hmirror.base, hmirror.members_texts⟩

/-- The template of a text is not compiled if the name of the model type does not read as a name. -/
theorem compileSource_unnamed (hbase : base ∈ BaseType.builtins) (pragmas : Bool) (sources : SourceProvider)
    {source : TemplateSource} (hcontent : source.content = Markup.literalTemplate s)
    (hname : ¬∃ name, Unit.ReadsAs modelType.name name) (w : Workshop) :
    ∃ pos fault failure, ((plainEngine base pragmas sources).compileSource source [] modelType w).1 =
        .error (.compilation failure) ∧ failure.template = source.key ∧
      failure.diagnostics = [(Unit.Problem.malformed fault).diagnostic pos] := by
  let className := ClassName.forTemplate source.key modelType
  let context : TypeContext := { plainContext base className with modelType }
  obtain ⟨unit, pos, hgenerate, htemplate, hsource⟩ := generate_literalTemplate base pragmas hcontent className modelType
  cases hread : Unit.Tree.ofSource unit.source with
  | ok t =>
    rw [hsource] at hread
    exact absurd ⟨_, (tree_literalTemplate hbase pragmas source.key pos className hread).1⟩ hname
  | error found =>
    obtain ⟨place, fault⟩ := found
    have hbuild := Unit.build_unreadable hread (({} : Compiler).options context)
      (ReferenceResolver.default [] Library.defaults)
    have hcompile := @Compiler.compile_failed {} unit context [] w (congrArg BuildOutput.hasErrors hbuild)
    rw [show ({} : Compiler).toolchain = Unit.build from rfl, hbuild] at hcompile
    have hgenerated : (plainEngine base pragmas sources).generator.generate source []
        ((plainEngine base pragmas sources).typeContext source.key modelType) = .ok unit := hgenerate
    refine ⟨place, fault, Compiler.failure unit (Compiler.sourceMap? unit) (Unit.failedBuild place (.malformed fault)), ?_,
      htemplate, rfl⟩
    rw [Engine.compileSource, bind_run, hgenerated]
    show ((({} : Compiler).compile unit context [] >>= _ : Compilation _) w).1 = _
    rw [bind_run, hcompile]

/-- A text without at signs comes out under a model type exactly if the name of the model type, as it stands in the header
of the class, reads as names with dots between them. This holds whatever the key and the model are, with either of the
built-in base types, with and without pragmas. Otherwise the answer is that the unit cannot be read. The name decides nothing
else: a unit that is read has the same namespaces and class names whatever the model type is, and its class writes the text
and does nothing else. -/
theorem Engine.runText_modelType (s key : String) (hs : '@' ∉ s.toList) (hbase : base ∈ BaseType.builtins) (pragmas : Bool)
    (hsources : sources.imports key "_imports" = .ok []) (modelType : ModelType) (model : Json) :
    ∃ e st, (plainParts base pragmas sources).build = .ok (e, st) ∧
      ((∃ name, Unit.ReadsAs modelType.name name) → (e.runText key s modelType model st).1 = .ok s) ∧
      ((¬∃ name, Unit.ReadsAs modelType.name name) → ∃ pos fault failure,
        (e.runText key s modelType model st).1 = .error (.error (.compilation failure)) ∧ failure.template = key ∧
          failure.diagnostics = [(Unit.Problem.malformed fault).diagnostic pos]) ∧
      ∃ unit, e.generator.generate ⟨key, s, none⟩ [] (e.typeContext key modelType) = .ok unit ∧
        ∀ t, Unit.Tree.ofSource unit.source = .ok t →
          Unit.ReadsAs modelType.name t.decl.model.name ∧ t.space = some Unit.unitNamespace ∧
            t.usings.map (·.name) = Text.sortedSet base.requiredNamespaces ∧
            t.decl.name.name = (ClassName.forTemplate key modelType).text ∧ t.decl.base.name = base.name ∧
            ∃ p, t.decl.members = [.execute ((Markup.textRuns s).map .write) p] := by
  have hcontent : (⟨key, s, none⟩ : TemplateSource).content = Markup.literalTemplate s :=
    (Markup.literalTemplate_of_not_mem hs).symm
  refine ⟨_, _, build_plainParts hbase pragmas sources, ?_, fun hname => ?_, ?_⟩
  · rintro ⟨name, hname⟩
    obtain ⟨t, hcompile, hbody, hlayout, hdigest⟩ :=
      @compileSource_named base s hbase pragmas sources _ hcontent _ _ hname {} rfl
    exact runText_compiled hsources hcompile hbody hlayout hdigest model
  · obtain ⟨pos, fault, failure, hcompile, htemplate, hdiagnostics⟩ :=
      compileSource_unnamed hbase pragmas sources hcontent hname {}
    exact ⟨pos, fault, failure, runText_failed hsources hcompile model, htemplate, hdiagnostics⟩
  · obtain ⟨unit, pos, hgenerate, -, hsource⟩ :=
      generate_literalTemplate base pragmas hcontent (.forTemplate key modelType) modelType
    refine ⟨unit, hgenerate, fun t ht => ?_⟩
    rw [hsource] at ht
    obtain ⟨hname, hspace, husings, htree⟩ := tree_literalTemplate hbase pragmas key pos _ ht
    refine ⟨hname, hspace, ?_, htree⟩
    rw [husings]
    -- Neither an import file nor the template adds a namespace.
    show Text.sortedSet (base.requiredNamespaces ++ [] ++ []) = _
    rw [List.append_nil, List.append_nil]

/-- A text comes out under a model type that is named by a path, and not under one whose name has brackets. -/
theorem Engine.runText_modelType_list :
    '@' ∉ "hello".toList ∧ BaseType.html ∈ BaseType.builtins ∧
      ({} : MemorySource).provider.imports "page" "_imports" = .ok [] ∧
      (∃ name, Unit.ReadsAs "Shop . Person" name) ∧ (¬∃ name, Unit.ReadsAs "List<Person>" name) ∧
      (∃ e st, (plainParts .html true ({} : MemorySource).provider).build = .ok (e, st) ∧
        (e.runText "page" "hello" (.ofName "Shop . Person") .null st).1 = .ok "hello") ∧
      ∃ e st, (plainParts .html true ({} : MemorySource).provider).build = .ok (e, st) ∧
        ∃ failure, (e.runText "page" "hello" (.ofName "List<Person>") .null st).1 =
          .error (.error (.compilation failure)) := by
  have htext : '@' ∉ "hello".toList := by decide
  have hname : ∃ name, Unit.ReadsAs "Shop . Person" name := ⟨"Shop.Person", rfl⟩
  have hnone : ¬∃ name, Unit.ReadsAs "List<Person>" name := by
    rintro ⟨name, h⟩
    have htokens : Unit.writtenCut "List<Person>" =
        some [.name "List", .symbol .less, .name "Person", .symbol .greater, .symbol .greater] := rfl
    obtain ⟨_, hw⟩ | hw | hw := h.mem htokens (List.mem_cons_of_mem _ List.mem_cons_self) <;> cases hw
  have hrun := fun modelType => @runText_modelType .html ({} : MemorySource).provider "hello" "page" htext List.mem_cons_self
    true rfl modelType .null
  refine ⟨htext, List.mem_cons_self, rfl, hname, hnone, ?_, ?_⟩
  · obtain ⟨e, st, hbuild, hread, -⟩ := hrun (.ofName "Shop . Person")
    exact ⟨e, st, hbuild, hread hname⟩
  · obtain ⟨e, st, hbuild, -, hfailed, -⟩ := hrun (.ofName "List<Person>")
    obtain ⟨pos, fault, failure, hanswer, -, -⟩ := hfailed hnone
    exact ⟨e, st, hbuild, failure, hanswer⟩

end

end Stencil
