import Stencil.Proofs.Unit.Loading
import Stencil.Proofs.Unit.Realization

/-! What a loaded program stands for.

What comes back from the binary of a module has the same names, indices and shape, so it still stands for the unit;
only the values of literals are those that come back from their texts. Linking puts into each slot the very helper
that the call was resolved to, since no two references share a namespace. -/

namespace Stencil.Unit

open Ir (Module)

/-- The linkage of a module whose slots hold helpers, before it is written. -/
def Linkage.written (helpers : List Helper) : Linkage where
  value v w := w = v
  slot index _ _ h := helpers[index]? = some h

/-- The linkage of a loaded program: literals have come back from the binary, and slots hold helpers. -/
def Linkage.loaded (helpers : List Helper) : Linkage where
  value v w := ∃ u, v.reread? = some u ∧ w = u.canonical
  slot index _ _ h := helpers[index]? = some h

variable {sc : Scope} {helpers : List Helper}

/-! ### Linking -/

theorem Picks.mem {locals : List String} {target : Expr} {r : Reference} {name : String} {h : Helper}
    (hp : Picks sc locals target r name h) : r ∈ sc.references ∧ r.helper? name = some h := by
  cases hp with
  | @name n _ _ _ _ _ _ hc =>
    have hmem : (r, h) ∈ sc.candidates name := hc ▸ List.mem_singleton_self _
    exact mem_of_candidates hmem
  | path hp hr hh => exact ⟨List.mem_of_find?_eq_some hr, hh⟩

/-- A slot that stands for an import holds the helper that the call was resolved to. -/
theorem Linkage.ofImports_le_written (hspaces : (sc.references.map (·.space)).Nodup) {is : List Ir.Import}
    (hrel : List.Forall₂ (fun i g => Reference.findHelper? sc.references i.space i.name = some g) is helpers) :
    (ofImports is).Le sc (written helpers) where
  value hv := hv
  slot := by
    intro locals target slot r name h hp hs
    obtain ⟨g, hg, hfind⟩ := forall₂_getElem? hrel hs
    obtain ⟨hr, hh⟩ := hp.mem
    have hreference : Reference.find? sc.references r.space = some r := find?_of_nodup hspaces hr
    rw [Reference.findHelper?, hreference, Option.bind_some, hh, Option.some.injEq] at hfind
    exact hfind ▸ hg

/-! ### Coming back -/

mutual

theorem Resolves.reread {locals : List String} {e : Expr} {e' e'' : Ir.Expr}
    (h : Resolves sc (.written helpers) locals e e') (hr : e'.reread? = some e'') :
    Resolves sc (.loaded helpers) locals e e'' := by
  cases h with
  | literal hv =>
    obtain rfl := hv
    obtain ⟨u, hu, rfl⟩ := Ir.Expr.reread?_literal_eq_some hr
    exact .literal ⟨u, hu, rfl⟩
  | var hl =>
    cases hr
    exact .var hl
  | model hl =>
    cases hr
    exact .model hl
  | member ht hm =>
    obtain ⟨t, ht', rfl⟩ := Ir.Expr.reread?_member_eq_some hr
    exact .member (Resolves.reread ht ht') hm
  | @call target args callee as hc ha =>
    obtain ⟨as', has, rfl⟩ := Ir.Expr.reread?_call_eq_some hr
    have hc' : ResolvesCallee sc (.loaded helpers) locals args.length target callee := by
      cases hc with
      | function hl hf hd hc => exact .function hl hf hd hc
      | builtin hl hf hb hc => exact .builtin hl hf hb hc
      | helper hp hs hc => exact .helper hp hs hc
    exact .call hc' (ResolvesAll.reread ha has)
  | not ho =>
    obtain ⟨o, ho', rfl⟩ := Ir.Expr.reread?_not_eq_some hr
    exact .not (Resolves.reread ho ho')
  | binary hl hr' =>
    obtain ⟨l, r, hl', hr'', rfl⟩ := Ir.Expr.reread?_binary_eq_some hr
    exact .binary (Resolves.reread hl hl') (Resolves.reread hr' hr'')

theorem ResolvesAll.reread {locals : List String} {es : List Expr} {es' es'' : List Ir.Expr}
    (h : ResolvesAll sc (.written helpers) locals es es') (hr : Ir.rereadExprs? es' = some es'') :
    ResolvesAll sc (.loaded helpers) locals es es'' := by
  cases h with
  | nil =>
    cases hr
    exact .nil
  | cons he hs =>
    obtain ⟨e'', es'', he'', hes'', rfl⟩ := Ir.rereadExprs?_cons_eq_some hr
    exact .cons (Resolves.reread he he'') (ResolvesAll.reread hs hes'')

end

mutual

theorem ResolvesStmt.reread {locals : List String} {s : Stmt} {s' s'' : Ir.Stmt}
    (h : ResolvesStmt sc (.written helpers) locals s s') (hr : s'.reread? = some s'') :
    ResolvesStmt sc (.loaded helpers) locals s s'' := by
  cases h with
  | write text =>
    cases hr
    exact .write text
  | emit he =>
    obtain ⟨e'', he'', rfl⟩ := Ir.Stmt.reread?_emit_eq_some hr
    exact .emit (he.reread he'')
  | var he =>
    obtain ⟨e'', he'', rfl⟩ := Ir.Stmt.reread?_bind_eq_some hr
    exact .var (he.reread he'')
  | ifElse hb ho =>
    obtain ⟨bs, body, hbs, hbody, rfl⟩ := Ir.Stmt.reread?_ifElse_eq_some hr
    exact .ifElse (ResolvesBranches.reread hb hbs) (ResolvesBlock.reread ho hbody)
  | forEach he hb =>
    obtain ⟨e'', ss, he'', hss, rfl⟩ := Ir.Stmt.reread?_forEach_eq_some hr
    exact .forEach (he.reread he'') (ResolvesStmts.reread hb hss)

theorem ResolvesBranches.reread {locals : List String} {branches : List Branch} {bs bs' : List Ir.Branch}
    (h : ResolvesBranches sc (.written helpers) locals branches bs) (hr : Ir.rereadBranches? bs = some bs') :
    ResolvesBranches sc (.loaded helpers) locals branches bs' := by
  cases h with
  | nil =>
    cases hr
    exact .nil
  | cons hc hb hs =>
    obtain ⟨cond, ss, bs', hcond, hss, hbs', rfl⟩ := Ir.rereadBranches?_cons_eq_some hr
    exact .cons (hc.reread hcond) (ResolvesStmts.reread hb hss) (ResolvesBranches.reread hs hbs')

theorem ResolvesBlock.reread {locals : List String} {otherwise : Option (List Stmt)}
    {body body' : Option (List Ir.Stmt)} (h : ResolvesBlock sc (.written helpers) locals otherwise body)
    (hr : Ir.rereadBlock? body = some body') : ResolvesBlock sc (.loaded helpers) locals otherwise body' := by
  cases h with
  | none =>
    cases hr
    exact .none
  | some hb =>
    obtain ⟨ss, hss, rfl⟩ := Ir.rereadBlock?_some_eq_some hr
    exact .some (ResolvesStmts.reread hb hss)

theorem ResolvesStmts.reread {locals : List String} {ss : List Stmt} {ss' ss'' : List Ir.Stmt}
    (h : ResolvesStmts sc (.written helpers) locals ss ss') (hr : Ir.rereadStmts? ss' = some ss'') :
    ResolvesStmts sc (.loaded helpers) locals ss ss'' := by
  cases h with
  | nil =>
    cases hr
    exact .nil
  | cons hs hrest =>
    obtain ⟨s'', ss'', hs'', hss'', rfl⟩ := Ir.rereadStmts?_cons_eq_some hr
    exact .cons (ResolvesStmt.reread hs hs'') (ResolvesStmts.reread hrest hss'')

end

/-! ### Modules -/

theorem ResolvesBody.reread {locals : List String} {ss : List Stmt} {ss' ss'' : List Ir.Stmt}
    {regs : List (Nat × List String)} (h : ResolvesBody sc (.written helpers) locals ss ss' regs)
    (hr : Ir.rereadStmts? ss' = some ss'') : ResolvesBody sc (.loaded helpers) locals ss ss'' regs := by
  induction h generalizing ss'' with
  | nil =>
    cases hr
    exact .nil
  | plain hs _ ih =>
    obtain ⟨s'', ss'', hs'', hss'', rfl⟩ := Ir.rereadStmts?_cons_eq_some hr
    exact .plain (hs.reread hs'') (ih hss'')
  | register hf _ ih =>
    obtain ⟨s'', ss'', hs'', hss'', rfl⟩ := Ir.rereadStmts?_cons_eq_some hr
    obtain ⟨-, rfl⟩ := Ir.Stmt.reread?_defineSection_eq_some hs''
    exact .register hf (ih hss'')

theorem RealizesFunction.reread {decl : FunctionDecl} {f f' : Ir.Function}
    (h : RealizesFunction sc (.written helpers) decl f) (hr : f.reread? = some f') :
    RealizesFunction sc (.loaded helpers) decl f' := by
  obtain ⟨body, hbody, rfl⟩ := Ir.Function.reread?_eq_some hr
  exact ⟨h.name, h.params, h.body.reread hbody⟩

/-- What comes back from a module that stands for a unit, with its imports linked, stands for it as well. -/
theorem Realizes.loaded (hspaces : (sc.references.map (·.space)).Nodup) {execute : List Stmt} {m m' : Ir.Module}
    (h : Realizes sc (.ofImports m.imports) execute m) (hm : m.reread? = some m')
    (hrel : List.Forall₂ (fun i g => Reference.findHelper? sc.references i.space i.name = some g) m.imports helpers) :
    Realizes sc (.loaded helpers) execute m' := by
  have hle : (Linkage.ofImports m.imports).Le sc (.written helpers) := Linkage.ofImports_le_written hspaces hrel
  obtain ⟨fs, secs, body, -, hfs, hsecs, hbody, rfl⟩ := Ir.Module.reread?_eq_some hm
  have hsection : ∀ index locals, RealizesSection sc (.ofImports m.imports) m index locals →
      RealizesSection sc (.loaded helpers) { m with functions := fs, sections := secs, body } index locals := by
    rintro index locals ⟨decl, b, hd, hb, hr⟩
    obtain ⟨s', hs', hback⟩ := forall₂_getElem? (forall₂_of_mapM hsecs) hb
    obtain ⟨b', hb', rfl⟩ := Ir.Section.reread?_eq_some hback
    exact ⟨decl, b', hd, hs', (hr.mono hle).reread hb'⟩
  obtain ⟨regs, hregs, hall⟩ := h.body
  refine ⟨?_, ⟨regs, (hregs.mono hle).reread hbody, fun r hr => hsection _ _ (hall r hr)⟩, fun index hi => ?_⟩
  · refine forall₂_trans (fun decl f f' hf hf' => ?_) h.functions (forall₂_of_mapM hfs)
    exact (hf.mono hle).reread hf'
  · obtain ⟨locals, hl⟩ := h.sections index ((forall₂_of_mapM hsecs).length_eq ▸ hi)
    exact ⟨locals, hsection index locals hl⟩

end Stencil.Unit
