import Stencil.Ir.Erasure
import Stencil.Proofs.Ir.Codec

/-! The binary of a module without places.

A place only adds to a binary: without places it nests no deeper, and what comes back from it is what comes back from
the module with places, without them. -/

namespace Stencil.Ir

/-! ### Nesting -/

mutual

/-- Without places, the record of a statement nests no deeper. -/
theorem Stmt.nesting_erasePlaces_le : (s : Stmt) → s.erasePlaces.toJson.nesting ≤ s.toJson.nesting
  | .write _ | .defineSection _ => le_refl _
  | .emit expr pos | .bind name expr pos => by
    simp only [Stmt.erasePlaces, Stmt.toJson, Json.nesting_variant, Json.nesting, Json.nestingMembers, posJson?,
      Json.ofOption]
    omega
  | .ifElse branches none pos => by
    have hbranches := nesting_branches_erasePlaces_le branches
    simp only [Stmt.erasePlaces, Stmt.toJson, Json.nesting_variant, Json.nesting, Json.nestingMembers, posJson?,
      Json.ofOption]
    omega
  | .ifElse branches (some body) pos => by
    have hbranches := nesting_branches_erasePlaces_le branches
    have hbody := nesting_stmts_erasePlaces_le body
    simp only [Stmt.erasePlaces, Stmt.toJson, Json.nesting_variant, Json.nesting, Json.nestingMembers, posJson?,
      Json.ofOption]
    omega
  | .forEach var source body pos => by
    have hbody := nesting_stmts_erasePlaces_le body
    simp only [Stmt.erasePlaces, Stmt.toJson, Json.nesting_variant, Json.nesting, Json.nestingMembers, posJson?,
      Json.ofOption]
    omega

theorem nesting_stmts_erasePlaces_le : (ss : List Stmt) →
    Json.nestingItems (stmtsJson (Stmt.erasePlacesAll ss)) ≤ Json.nestingItems (stmtsJson ss)
  | [] => le_refl _
  | s :: ss => max_le_max s.nesting_erasePlaces_le (nesting_stmts_erasePlaces_le ss)

theorem nesting_branches_erasePlaces_le : (bs : List Branch) →
    Json.nestingItems (branchesJson (Branch.erasePlacesAll bs)) ≤ Json.nestingItems (branchesJson bs)
  | [] => le_refl _
  | .mk cond body :: bs => by
    have hbody := nesting_stmts_erasePlaces_le body
    have hbs := nesting_branches_erasePlaces_le bs
    simp only [Branch.erasePlacesAll, Branch.erasePlaces, branchesJson, Json.nestingItems, Json.nesting,
      Json.nestingMembers]
    omega

end

theorem Function.nesting_erasePlaces_le (f : Function) : f.erasePlaces.toJson.nesting ≤ f.toJson.nesting := by
  simp only [Function.erasePlaces, Function.toJson, Json.nesting, Json.nestingMembers, posJson?, Json.ofOption]
  omega

theorem Section.nesting_erasePlaces_le (s : Section) : s.erasePlaces.toJson.nesting ≤ s.toJson.nesting := by
  have hbody := nesting_stmts_erasePlaces_le s.body
  simp only [Section.erasePlaces, Section.toJson, Json.nesting, Json.nestingMembers]
  omega

theorem nestingItems_map_le {α : Type} {write : α → Json} {f : α → α}
    (h : ∀ a, (write (f a)).nesting ≤ (write a).nesting) (xs : List α) :
    Json.nestingItems ((xs.map f).map write) ≤ Json.nestingItems (xs.map write) := by
  induction xs with
  | nil => exact le_refl _
  | cons x xs ih => exact max_le_max (h x) ih

/-- Without places, the binary of a module nests no deeper. -/
theorem Module.nesting_erasePlaces_le (m : Module) : m.erasePlaces.toJson.nesting ≤ m.toJson.nesting := by
  have hfunctions := nestingItems_map_le Function.nesting_erasePlaces_le m.functions
  have hsections := nestingItems_map_le Section.nesting_erasePlaces_le m.sections
  have hbody := nesting_stmts_erasePlaces_le m.body
  simp only [Module.erasePlaces, Module.toJson, Json.nesting, Json.nestingMembers]
  gcongr

/-! ### What comes back -/

mutual

/-- What comes back from a statement comes back without places if it has none. -/
theorem Stmt.reread?_erasePlaces {s' : Stmt} : (s : Stmt) → s.reread? = some s' →
    s.erasePlaces.reread? = some s'.erasePlaces
  | .write _, h => by
    cases h
    rfl
  | .emit expr pos, h => by
    obtain ⟨e, he, rfl⟩ := Stmt.reread?_emit_eq_some h
    simp [Stmt.erasePlaces, Stmt.reread?, he, rereadPlace?]
  | .bind name expr pos, h => by
    obtain ⟨e, he, rfl⟩ := Stmt.reread?_bind_eq_some h
    simp [Stmt.erasePlaces, Stmt.reread?, he, rereadPlace?]
  | .ifElse branches none pos, h => by
    obtain ⟨bs, _, hbs, ⟨⟩, rfl⟩ := Stmt.reread?_ifElse_eq_some h
    simp [Stmt.erasePlaces, Stmt.reread?, rereadBranches?_erasePlaces branches hbs, rereadBlock?, rereadPlace?]
  | .ifElse branches (some body) pos, h => by
    obtain ⟨bs, _, hbs, hbody, rfl⟩ := Stmt.reread?_ifElse_eq_some h
    obtain ⟨ss, hss, rfl⟩ := rereadBlock?_some_eq_some hbody
    simp [Stmt.erasePlaces, Stmt.reread?, rereadBranches?_erasePlaces branches hbs, rereadBlock?,
      rereadStmts?_erasePlaces body hss, rereadPlace?]
  | .forEach var source body pos, h => by
    obtain ⟨e, ss, he, hss, rfl⟩ := Stmt.reread?_forEach_eq_some h
    simp [Stmt.erasePlaces, Stmt.reread?, he, rereadStmts?_erasePlaces body hss, rereadPlace?]
  | .defineSection index, h => by
    obtain ⟨hindex, rfl⟩ := Stmt.reread?_defineSection_eq_some h
    exact if_pos hindex

theorem rereadStmts?_erasePlaces {ss' : List Stmt} : (ss : List Stmt) → rereadStmts? ss = some ss' →
    rereadStmts? (Stmt.erasePlacesAll ss) = some (Stmt.erasePlacesAll ss')
  | [], h => by
    cases h
    rfl
  | s :: ss, h => by
    obtain ⟨t, ts, ht, hts, rfl⟩ := rereadStmts?_cons_eq_some h
    simp [Stmt.erasePlacesAll, rereadStmts?, Stmt.reread?_erasePlaces s ht, rereadStmts?_erasePlaces ss hts]

theorem rereadBranches?_erasePlaces {bs' : List Branch} : (bs : List Branch) → rereadBranches? bs = some bs' →
    rereadBranches? (Branch.erasePlacesAll bs) = some (Branch.erasePlacesAll bs')
  | [], h => by
    cases h
    rfl
  | .mk cond body :: bs, h => by
    obtain ⟨c, ss, ts, hc, hss, hts, rfl⟩ := rereadBranches?_cons_eq_some h
    simp [Branch.erasePlacesAll, Branch.erasePlaces, rereadBranches?, Branch.reread?, hc,
      rereadStmts?_erasePlaces body hss, rereadBranches?_erasePlaces bs hts]

end

theorem Function.reread?_erasePlaces {f f' : Function} (h : f.reread? = some f') :
    f.erasePlaces.reread? = some f'.erasePlaces := by
  obtain ⟨e, he, rfl⟩ := Function.reread?_eq_some h
  simp [Function.erasePlaces, Function.reread?, he, rereadPlace?]

theorem Section.reread?_erasePlaces {s s' : Section} (h : s.reread? = some s') :
    s.erasePlaces.reread? = some s'.erasePlaces := by
  obtain ⟨ss, hss, rfl⟩ := Section.reread?_eq_some h
  simp [Section.erasePlaces, Section.reread?, rereadStmts?_erasePlaces _ hss]

/-- Parts that come back one by one come back changed if each of them does. -/
theorem mapM_map_of_eq_some {α : Type} {back : α → Option α} {f : α → α} {xs ys : List α}
    (hxs : xs.mapM back = some ys) (h : ∀ {a b}, back a = some b → back (f a) = some (f b)) :
    (xs.map f).mapM back = some (ys.map f) := by
  induction xs generalizing ys with
  | nil =>
    cases hxs
    rfl
  | cons x xs ih =>
    simp only [List.mapM_cons, Option.bind_eq_bind, Option.bind_eq_some_iff, Option.pure_def, Option.some.injEq] at hxs
    obtain ⟨y, hy, zs, hzs, rfl⟩ := hxs
    simp [List.mapM_cons, h hy, ih hzs]

/-- What comes back from a module without places is what comes back from the module, without places. -/
theorem Module.reread?_erasePlaces {m m' : Module} (h : m.reread? = some m') :
    m.erasePlaces.reread? = some m'.erasePlaces := by
  obtain ⟨fs, ss, body, hformat, hfs, hss, hbody, rfl⟩ := Module.reread?_eq_some h
  have hformat' : m.erasePlaces.format < formatLimit := hformat
  have hfunctions := mapM_map_of_eq_some hfs Function.reread?_erasePlaces
  have hsections := mapM_map_of_eq_some hss Section.reread?_erasePlaces
  rw [Module.reread?, if_pos hformat']
  simp [Module.erasePlaces, hfunctions, hsections, rereadStmts?_erasePlaces _ hbody]

end Stencil.Ir
