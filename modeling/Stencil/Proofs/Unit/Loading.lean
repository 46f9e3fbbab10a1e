import Stencil.Compile.Compiler
import Stencil.Proofs.Ir.Codec
import Stencil.Proofs.Unit.Modules

/-! Loading what was built.

A unit without errors has a binary, and every import and the base type of its module are there when it is loaded
again. What may be lost is the binary itself: its reader goes down 127 levels only, while its writer follows
expressions and blocks however deep they nest. -/

namespace Stencil

namespace Ir

/-- A module whose binary can be read: it nests at most as deep as the reader goes, and the numbers of its literals,
its indices and its places are in the reader's range. -/
def Module.Loadable (m : Module) : Prop := m.toJson.nesting ≤ maxNesting ∧ m.reread?.isSome

instance (m : Module) : Decidable m.Loadable := inferInstanceAs (Decidable (_ ∧ _))

/-- What comes back from a module has its header and its imports. -/
theorem Module.reread?_header {m m' : Module} (h : m.reread? = some m') :
    m'.format = m.format ∧ m'.baseType = m.baseType ∧ m'.imports = m.imports := by
  obtain ⟨_, _, _, -, -, -, -, rfl⟩ := Module.reread?_eq_some h
  exact ⟨rfl, rfl, rfl⟩

end Ir

namespace Unit

variable {references : List Reference}

/-- What comes back from a linkable module is linkable. -/
theorem Linkable.reread {bases : List BaseType} {m m' : Ir.Module} (h : Linkable references bases m)
    (hm : m.reread? = some m') : Linkable references bases m' := by
  obtain ⟨hformat, hbase, himports⟩ := Ir.Module.reread?_header hm
  exact ⟨hformat ▸ h.format, hbase ▸ h.base, himports ▸ h.imports⟩

/-- The binary of a linkable module is loaded if its text can be read, and else is refused as unreadable. -/
theorem Linkable.load (hspaces : (references.map (·.space)).Nodup) {bases : List BaseType} {m : Ir.Module}
    (h : Linkable references bases m) (debug : Bool) :
    if m.Loadable then ∃ m' p, m.reread? = some m' ∧ Program.load (m.encode debug) references bases = .ok p ∧
      p.module = m' ∧
      List.Forall₂ (fun i g => Reference.findHelper? references i.space i.name = some g) m'.imports p.helpers
    else Program.load (m.encode debug) references bases = .error .unreadable := by
  rw [Program.load, Ir.Module.decode?_encode]
  split
  · rename_i hload
    obtain ⟨m', hm⟩ := Option.isSome_iff_exists.mp hload.2
    obtain ⟨p, hlink, hmodule, hrel⟩ := (h.reread hm).link hspaces
    refine ⟨m', p, hm, ?_, hmodule, hrel⟩
    rw [if_pos hload.1, hm]
    exact hlink
  · rename_i hload
    by_cases hn : m.toJson.nesting ≤ Ir.maxNesting
    · rw [if_pos hn]
      rcases hm : m.reread? with _ | m'
      · rfl
      · exact absurd ⟨hn, by rw [hm]; rfl⟩ hload
    · rw [if_neg hn]

/-- A program that is loaded from the binary of a linkable module has what comes back from the module, and in each slot
the helper that the import stands for. -/
theorem Linkable.of_load (hspaces : (references.map (·.space)).Nodup) {bases : List BaseType} {m : Ir.Module}
    (h : Linkable references bases m) {debug : Bool} {p : Program}
    (hload : Program.load (m.encode debug) references bases = .ok p) : m.reread? = some p.module ∧
      List.Forall₂ (fun i g => Reference.findHelper? references i.space i.name = some g) m.imports p.helpers := by
  have hlinked := h.load hspaces debug
  rw [hload] at hlinked
  split at hlinked
  · obtain ⟨m', p', hreread, hp, rfl, hhelpers⟩ := hlinked
    obtain rfl := Except.ok.inj hp
    rw [(Ir.Module.reread?_header hreread).2.2] at hhelpers
    exact ⟨hreread, hhelpers⟩
  · cases hlinked

/-- Without errors, building gives the binary of the module that the unit was lowered to. -/
theorem build_eq_some {source : String} {options : BuildOptions}
    (h : (build source options references).hasErrors = false) :
    ∃ t lowered functions body s, Tree.ofSource source = .ok t ∧
      t.lower? options.toLoweringOptions references = some lowered ∧
      lowerOutline (t.scope options.toLoweringOptions references) t.outline t.decl.name.pos
        (t.start options.toLoweringOptions references) = some ((functions, body), s) ∧
      s.Clean ∧ lowered.compiled = some (t.assemble options.toLoweringOptions functions body s) ∧
      (build source options references).binary =
        some ((t.assemble options.toLoweringOptions functions body s).encode options.debug) := by
  -- A build that stops early has an error.
  have herror : ∀ (pos : SourcePos) (p : Problem), p.isError = true → (failedBuild pos p).hasErrors = true := by
    intro pos p hp
    simpa [failedBuild, BuildOutput.hasErrors, Problem.diagnostic, Diagnostic.isError, Problem.isError] using hp
  unfold build at h ⊢
  split at h
  · rename_i pos fault _
    rw [herror pos (.malformed fault) rfl] at h
    cases h
  · rename_i t ht
    split at h
    · rw [herror t.decl.name.pos .circularSections rfl] at h
      cases h
    · rename_i lowered hlower
      have hok : lowered.problems.any (·.2.isError) = false := by
        simpa [BuildOutput.hasErrors, List.any_map, Function.comp_def, Problem.diagnostic, Diagnostic.isError,
          Problem.isError] using h
      obtain ⟨functions, body, s, hrun, hclean, hcompiled⟩ := lower?_eq_some hlower hok
      refine ⟨t, lowered, functions, body, s, ht, hlower, hrun, hclean, hcompiled, ?_⟩
      dsimp only
      rw [hcompiled]
      rfl

end Unit

/-! ### Compilers -/

namespace Compiler

/-- What a compiler builds the units of a context for. -/
def options (c : Compiler) (context : TypeContext) : BuildOptions where
  usings := context.namespaces
  modelType := context.modelType
  baseTypes := c.baseTypes
  debug := c.debug

/-- A compiler that keeps no files loads the binary that it has built. -/
theorem compile_in_memory {c : Compiler} {unit : Unit.Generated} {context : TypeContext} {own : List Reference}
    {w : Workshop} (hmemory : w.artifacts.folder = none) {binary : String}
    (herrors : (c.toolchain unit.source (c.options context) (c.resolver own c.defaultReferences)).hasErrors = false)
    (hbinary : (c.toolchain unit.source (c.options context) (c.resolver own c.defaultReferences)).binary =
      some binary) :
    (c.compile unit context own w).1 =
      match Program.load binary (c.resolver own c.defaultReferences) c.baseTypes with
      | .error fault => .error (.ofCause unit.template (.invalidBinary fault))
      | .ok program => .ok {
          template := unit.template, className := unit.className, modelType := context.modelType
          program, sourceMap := sourceMap? unit, artifact := none } := by
  have hkeep : ∀ w' : Workshop, w'.artifacts = w.artifacts → keepBinary unit binary w' = (.ok (binary, none), w') := by
    intro w' hw
    rw [keepBinary, hw, hmemory]
  unfold options at herrors hbinary
  unfold compile
  dsimp only
  rw [herrors, hbinary]
  simp only [bind, ExceptT.bind, ExceptT.mk, StateT.bind]
  change (StateT.bind (keepBinary unit binary) _ _).1 = _
  rw [StateT.bind, hkeep]
  · dsimp only [bind, ExceptT.bindCont]
    cases Program.load binary (c.resolver own c.defaultReferences) c.baseTypes <;> rfl
  · rfl

/-- A unit that is built with errors is a compilation error. -/
theorem compile_failed {c : Compiler} {unit : Unit.Generated} {context : TypeContext} {own : List Reference} (w : Workshop)
    (h : (c.toolchain unit.source (c.options context) (c.resolver own c.defaultReferences)).hasErrors = true) :
    (c.compile unit context own w).1 = .error (.compilation (failure unit (sourceMap? unit)
      (c.toolchain unit.source (c.options context) (c.resolver own c.defaultReferences)))) := by
  unfold options at h ⊢
  unfold compile
  dsimp only
  rw [h]
  rfl

end Compiler

/-! ### Units that were built -/

namespace Unit

/-- The binary of a unit that was built without errors is that of its module, and is loaded if the module is loadable. -/
theorem load_of_build {source : String} {options : BuildOptions} {references : List Reference}
    (hspaces : (references.map (·.space)).Nodup) (hbuild : (build source options references).hasErrors = false) :
    ∃ t lowered m, Tree.ofSource source = .ok t ∧ t.lower? options.toLoweringOptions references = some lowered ∧
      lowered.compiled = some m ∧ (build source options references).binary = some (m.encode options.debug) ∧
      if m.Loadable then ∃ p, Program.load (m.encode options.debug) references options.baseTypes = .ok p
      else Program.load (m.encode options.debug) references options.baseTypes = .error .unreadable := by
  obtain ⟨t, lowered, functions, body, s, htree, hlower, hrun, hclean, hcompiled, hbinary⟩ := build_eq_some hbuild
  have hload := (linkable_of_clean hrun hclean).load hspaces options.debug
  refine ⟨t, lowered, _, htree, hlower, hcompiled, hbinary, ?_⟩
  split at hload
  · rename_i hm
    obtain ⟨-, p, -, hp, -⟩ := hload
    rw [if_pos hm]
    exact ⟨p, hp⟩
  · rename_i hm
    rwa [if_neg hm]

end Unit

end Stencil
