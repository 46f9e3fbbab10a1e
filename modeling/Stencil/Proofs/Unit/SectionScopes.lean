import Stencil.Proofs.Unit.Lowerings
import Stencil.Proofs.Unit.TypeSoundness

/-! The scopes that sections are rendered in.

A registered section keeps the locals in scope where it is registered, and is rendered with them. Its code is that of
the last lowering of the section, which may be for another registration. So every name in it stands for what it does
where the section is registered, unless the two scopes differ in a local with the name of the model. -/

namespace Stencil

variable {σ : Type}

/-! ### Sections that runs register -/

section
variable {known : Action → Prop} {host : Host σ}

end

namespace Unit

variable {sc : Scope} {k k' : Linkage} {helpers : List Helper} {execute : List Stmt} {all : List (Nat × List String)}

/-! ### Registrations in code and in the unit -/

theorem TranslatesStmt.binds_eq {ls : List String} {s : Stmt} {s' : Ir.Stmt} (h : TranslatesStmt sc k ls s s') :
    s'.binds = s.binds := by
  cases h <;> rfl

theorem TranslatesBranches.of_mem {ls : List String} {branches : List Branch} {bs : List Ir.Branch}
    (h : TranslatesBranches sc k ls branches bs) {cond : Ir.Expr} {ss : List Ir.Stmt} (hb : .mk cond ss ∈ bs)
    (names : List String) : ∃ body, Translates sc k ls body ss ∧ sites sc names body ⊆ branchSites sc names branches := by
  induction branches generalizing bs with
  | nil =>
    cases h
    cases hb
  | cons branch branches ih =>
    cases h with
    | cons hc hbody hs =>
      rw [branchSites]
      rcases List.mem_cons.mp hb with hb | hb
      · cases hb
        exact ⟨_, hbody, List.subset_append_left _ _⟩
      · obtain ⟨body, ht, hsub⟩ := ih hs hb
        exact ⟨body, ht, List.Subset.trans hsub (List.subset_append_right _ _)⟩

theorem Assembled.loaded (hspaces : (sc.references.map (·.space)).Nodup) {m m' : Ir.Module}
    (h : Assembled sc (.ofImports m.imports) execute all m) (hm : m.reread? = some m')
    (hrel : List.Forall₂ (fun i g => Reference.findHelper? sc.references i.space i.name = some g) m.imports helpers) :
    Assembled sc (.loaded helpers) execute all m' := by
  have hle : (Linkage.ofImports m.imports).Le sc (.written helpers) := Linkage.ofImports_le_written hspaces hrel
  obtain ⟨fs, secs, body, -, hfs, hsecs, hbody, rfl⟩ := Ir.Module.reread?_eq_some hm
  refine ⟨(h.body.mono hle).reread hbody, fun index decl hd => ?_⟩
  obtain ⟨ls, b, hlast, hb, ht⟩ := h.sections index decl hd
  obtain ⟨s', hs', hback⟩ := forall₂_getElem? (forall₂_of_mapM hsecs) hb
  obtain ⟨b', hb', rfl⟩ := Ir.Section.reread?_eq_some hback
  exact ⟨ls, b', hlast, hs', (ht.mono hle).reread hb'⟩

/-! ### Scopes of registered sections -/

variable {t : CompiledTemplate} {model : Json}

end Unit

end Stencil
