import Mathlib
import Stencil.Proofs.Unit.Realization

/-! When lowering a unit ends.

A section is lowered wherever it is registered, and its own body may register more sections. So lowering walks from section
to section, and it ends exactly if no walk comes back to a section that it has passed. -/

namespace Stencil.Unit

/-! ### Registrations -/

mutual

/-- The names of the sections that a statement registers, itself or in a block. -/
def Stmt.registrations : Stmt → List String
  | .defineSection n => [n.name]
  | .ifElse branches otherwise _ => branchRegistrations branches ++ blockRegistrations otherwise
  | .forEach _ _ body _ => registrations body
  | .write _ | .emit .. | .var .. => []

def branchRegistrations : List Branch → List String
  | [] => []
  | .mk _ body :: rest => registrations body ++ branchRegistrations rest

def blockRegistrations : Option (List Stmt) → List String
  | none => []
  | some body => registrations body

/-- The names of the sections that statements register, at any depth. -/
def registrations : List Stmt → List String
  | [] => []
  | s :: ss => s.registrations ++ registrations ss

end

/-- The body of a section registers another one, at any depth. Both are given by their indices. -/
def Registers (sections : List SectionDecl) (i j : Nat) : Prop :=
  ∃ decl name, sections[i]? = some decl ∧ name ∈ registrations decl.body ∧
    sections.findIdx? (·.name.name == name) = some j

/-- Registrations lead from a section back to itself. -/
def Circular (sections : List SectionDecl) (i : Nat) : Prop := Relation.TransGen (Registers sections) i i

section
variable {sections : List SectionDecl} {i j : Nat}

theorem Registers.lt (h : Registers sections i j) : i < sections.length ∧ j < sections.length := by
  obtain ⟨decl, name, hi, -, hj⟩ := h
  exact ⟨(List.getElem?_eq_some_iff.mp hi).1, (List.findIdx?_eq_some_iff_getElem.mp hj).1⟩

/-- A section on a circle registers one that is on a circle too. -/
theorem Circular.next (h : Circular sections i) : ∃ j, Registers sections i j ∧ Circular sections j := by
  obtain ⟨j, hij, hji⟩ := Relation.TransGen.head'_iff.mp h
  exact ⟨j, hij, Relation.TransGen.tail' hji hij⟩

/-- Sections that lead one to the next without a circle are few: a walk that has passed as many as there are is over. -/
theorem length_lt_of_walk {passed : List Nat} (hnodup : passed.Nodup)
    (hreach : ∀ k ∈ passed, Relation.TransGen (Registers sections) k i) (hi : ¬Circular sections i)
    (hlt : i < sections.length) : passed.length < sections.length := by
  have hfresh : i ∉ passed := fun hmem => hi (hreach i hmem)
  have hsubset : i :: passed ⊆ List.range sections.length := by
    intro k hk
    rw [List.mem_range]
    rcases List.mem_cons.mp hk with rfl | hk
    · exact hlt
    · obtain ⟨j, hkj, -⟩ := Relation.TransGen.head'_iff.mp (hreach k hk)
      exact hkj.lt.1
  have hle := (List.nodup_cons.mpr ⟨hfresh, hnodup⟩).length_le_of_subset hsubset
  rwa [List.length_range] at hle

end

/-! ### Properties of steps -/

/-- A property that steps have if they are put together from steps that have it. -/
structure Composes (P : ∀ {α : Type}, Lower α → Prop) : Prop where
  pure {α : Type} (a : α) : P (pure a : Lower α)
  bind {α β : Type} {x : Lower α} {f : α → Lower β} : P x → (∀ a, P (f a)) → P (x >>= f)
  /-- Steps that leave the sections as they are have it. -/
  aside {α : Type} {x : Resolve α} : (∀ s, (x s).2.sections = s.sections) → P x.lift

theorem sections_of_sound {sc : Scope} {x : Resolve α} {Q : List Ir.Import → α → Prop} (h : Sound sc x.lift Q)
    (s : Findings) : (x s).2.sections = s.sections :=
  (h s (x s).1 (x s).2 rfl).2.1

namespace Composes
variable {P : ∀ {α : Type}, Lower α → Prop} (hP : Composes P) {sc : Scope} {lowerSection : SectionLowering}
include hP

theorem lowerExpr (locals : List String) (e : Expr) : P (lowerExpr sc locals e).lift :=
  hP.aside (sections_of_sound (sound_lowerExpr locals e))

theorem map {x : Lower α} (hx : P x) (f : α → β) : P (f <$> x) := hP.bind hx fun a => hP.pure (f a)

mutual

/-- Lowering a statement has the property if lowering each section has it that the statement registers. -/
theorem lowerStmt (locals : List String) : (s : Stmt) →
    (∀ n ∈ s.registrations, ∀ j, sc.sections.findIdx? (·.name.name == n) = some j → ∀ ls, P (lowerSection j ls)) →
    P (lowerStmt sc lowerSection locals s)
  | .write text, _ => by
    rw [Unit.lowerStmt]
    exact hP.pure _
  | .emit e pos, _ => by
    rw [Unit.lowerStmt]
    exact hP.bind (hP.lowerExpr locals e) fun _ => hP.pure _
  | .var n e pos, _ => by
    rw [Unit.lowerStmt]
    exact hP.bind (hP.lowerExpr locals e) fun _ => hP.pure _
  | .ifElse branches none pos, h => by
    rw [Unit.lowerStmt]
    have hbranches := lowerBranches locals branches fun n hn => h n (List.mem_append_left _ hn)
    exact hP.bind hbranches fun _ => hP.bind (hP.pure _) fun _ => hP.pure _
  | .ifElse branches (some body) pos, h => by
    rw [Unit.lowerStmt]
    have hbranches := lowerBranches locals branches fun n hn => h n (List.mem_append_left _ hn)
    have hbody := lowerStmts locals body fun n hn => h n (List.mem_append_right _ hn)
    exact hP.bind hbranches fun _ => hP.bind (hP.map hbody _) fun _ => hP.pure _
  | .forEach n source body pos, h => by
    rw [Unit.lowerStmt]
    have hbody := lowerStmts (n.name :: locals) body h
    exact hP.bind (hP.lowerExpr locals source) fun _ => hP.bind hbody fun _ => hP.pure _
  | .defineSection n, h => by
    rw [Unit.lowerStmt]
    split
    · exact hP.bind (hP.aside fun _ => rfl) fun _ => hP.pure _
    · rename_i j hj
      exact hP.bind (h n.name (List.mem_singleton_self _) j hj locals) fun _ => hP.pure _

theorem lowerBranches (locals : List String) : (branches : List Branch) →
    (∀ n ∈ branchRegistrations branches, ∀ j, sc.sections.findIdx? (·.name.name == n) = some j →
      ∀ ls, P (lowerSection j ls)) →
    P (lowerBranches sc lowerSection locals branches)
  | [], _ => by
    rw [Unit.lowerBranches]
    exact hP.pure _
  | .mk cond body :: rest, h => by
    rw [Unit.lowerBranches]
    have hbody := lowerStmts locals body fun n hn => h n (List.mem_append_left _ hn)
    have hrest := lowerBranches locals rest fun n hn => h n (List.mem_append_right _ hn)
    exact hP.bind (hP.lowerExpr locals cond) fun _ => hP.bind hbody fun _ => hP.bind hrest fun _ => hP.pure _

theorem lowerStmts (locals : List String) : (ss : List Stmt) →
    (∀ n ∈ registrations ss, ∀ j, sc.sections.findIdx? (·.name.name == n) = some j → ∀ ls, P (lowerSection j ls)) →
    P (lowerStmts sc lowerSection locals ss)
  | [], _ => by
    rw [Unit.lowerStmts]
    exact hP.pure _
  | s :: ss, h => by
    rw [lowerStmts_cons]
    have hs := lowerStmt locals s fun n hn => h n (List.mem_append_left _ hn)
    have hss := lowerStmts (s.binds ++ locals) ss fun n hn => h n (List.mem_append_right _ hn)
    exact hP.bind hs fun _ => hP.bind hss fun _ => hP.pure _

end

end Composes

/-! ### Steps with and without a result -/

/-- A step has a result, whatever has been found before. -/
def Returns (x : Lower α) : Prop := ∀ s, (x s).isSome

/-- A step has no result, whatever has been found before. -/
def Never (x : Lower α) : Prop := ∀ s, x s = none

theorem returns_composes : Composes Returns where
  pure _ _ := rfl
  bind {_ _ x f} hx hf s := by
    obtain ⟨⟨a, s'⟩, hxs⟩ := Option.isSome_iff_exists.mp (hx s)
    rw [show (x >>= f) s = (x s).bind fun r => f r.1 r.2 from rfl, hxs]
    exact hf a s'
  aside _ _ := rfl

variable {sc : Scope} {index : Nat}

/-- A section that is on no circle is lowered within the depth that is left for those that have not been passed. -/
theorem returns_lowerSection (hsound : ∀ j, ¬Circular sc.sections j) {depth : Nat} {passed : List Nat} (hnodup : passed.Nodup)
    (hreach : ∀ k ∈ passed, Relation.TransGen (Registers sc.sections) k index) (hlt : index < sc.sections.length)
    (hdepth : sc.sections.length ≤ passed.length + depth) (locals : List String) :
    Returns (lowerSection sc depth index locals) := by
  have hroom := length_lt_of_walk hnodup hreach (hsound index) hlt
  induction depth generalizing passed index locals with
  | zero => omega
  | succ depth ih =>
    rw [lowerSection, List.getElem?_eq_getElem hlt]
    refine returns_composes.bind (returns_composes.lowerStmts locals _ fun n hn j hj ls => ?_) fun body s => rfl
    have hnext : Registers sc.sections index j := ⟨_, n, List.getElem?_eq_getElem hlt, hn, hj⟩
    have hpassed : ∀ k ∈ index :: passed, Relation.TransGen (Registers sc.sections) k j := by
      intro k hk
      rcases List.mem_cons.mp hk with rfl | hk
      · exact .single hnext
      · exact (hreach k hk).tail hnext
    have hnodup' : (index :: passed).Nodup :=
      List.nodup_cons.mpr ⟨fun hmem => hsound index (hreach index hmem), hnodup⟩
    refine ih hnodup' hpassed hnext.lt.2 ?_ ls (length_lt_of_walk hnodup' hpassed (hsound j) hnext.lt.2)
    rw [List.length_cons]
    omega

/-- Steps after each other have no result from some findings on if the second has none wherever the first leads. -/
theorem run_bind_none {x : Lower α} {f : α → Lower β} {s : Findings}
    (h : ∀ a s', x s = some (a, s') → f a s' = none) : (x >>= f) s = none := by
  rw [show (x >>= f) s = (x s).bind fun r => f r.1 r.2 from rfl]
  rcases hxs : x s with _ | ⟨a, s'⟩
  · rfl
  · exact h a s' hxs

namespace Never

theorem bind {x : Lower α} (hx : Never x) (f : α → Lower β) : Never (x >>= f) := by
  refine fun s => run_bind_none fun a s' hxs => ?_
  rw [hx s] at hxs
  cases hxs

theorem bind_right (x : Lower α) {f : α → Lower β} (hf : ∀ a, Never (f a)) : Never (x >>= f) :=
  fun _ => run_bind_none fun a s' _ => hf a s'

theorem map {x : Lower α} (hx : Never x) (f : α → β) : Never (f <$> x) := hx.bind fun a => pure (f a)

/-- Lowering never ends for a section with one of the names. -/
def OfNames (sc : Scope) (lowerSection : SectionLowering) (names : List String) : Prop :=
  ∃ n ∈ names, ∃ j, sc.sections.findIdx? (·.name.name == n) = some j ∧ ∀ ls, Never (lowerSection j ls)

variable {lowerSection : SectionLowering}

theorem ofNames_nil : ¬OfNames sc lowerSection [] := by
  rintro ⟨n, hn, -⟩
  cases hn

theorem ofNames_append {ns ms : List String} :
    OfNames sc lowerSection (ns ++ ms) ↔ OfNames sc lowerSection ns ∨ OfNames sc lowerSection ms := by
  simp only [OfNames, List.mem_append, or_and_right, exists_or]

mutual

/-- Lowering a statement never ends if it registers a section for which it does not. -/
theorem lowerStmt (locals : List String) :
    (s : Stmt) → OfNames sc lowerSection s.registrations → Never (lowerStmt sc lowerSection locals s)
  | .write _, h | .emit .., h | .var .., h => (ofNames_nil h).elim
  | .ifElse branches none pos, h => by
    rw [Unit.lowerStmt]
    have hbranches := (ofNames_append.mp h).resolve_right ofNames_nil
    exact (lowerBranches locals branches hbranches).bind _
  | .ifElse branches (some body) pos, h => by
    rw [Unit.lowerStmt]
    rcases ofNames_append.mp h with h | h
    · exact (lowerBranches locals branches h).bind _
    · exact bind_right _ fun _ => ((lowerStmts locals body h).map _).bind _
  | .forEach n source body pos, h => by
    rw [Unit.lowerStmt]
    exact bind_right _ fun _ => (lowerStmts (n.name :: locals) body h).bind _
  | .defineSection n, ⟨m, hm, j, hj, hsec⟩ => by
    obtain rfl := List.mem_singleton.mp hm
    rw [Unit.lowerStmt, hj]
    exact (hsec locals).bind _

theorem lowerBranches (locals : List String) :
    (branches : List Branch) → OfNames sc lowerSection (branchRegistrations branches) →
      Never (lowerBranches sc lowerSection locals branches)
  | [], h => (ofNames_nil h).elim
  | .mk cond body :: rest, h => by
    rw [Unit.lowerBranches]
    refine bind_right _ fun _ => ?_
    rcases ofNames_append.mp h with h | h
    · exact (lowerStmts locals body h).bind _
    · exact bind_right _ fun _ => (lowerBranches locals rest h).bind _

theorem lowerStmts (locals : List String) :
    (ss : List Stmt) → OfNames sc lowerSection (registrations ss) → Never (lowerStmts sc lowerSection locals ss)
  | [], h => (ofNames_nil h).elim
  | s :: ss, h => by
    rw [lowerStmts_cons]
    rcases ofNames_append.mp h with h | h
    · exact (lowerStmt locals s h).bind _
    · exact bind_right _ fun _ => (lowerStmts (s.binds ++ locals) ss h).bind _

end

end Never

/-- No depth is enough to lower a section on a circle. -/
theorem never_lowerSection (h : Circular sc.sections index) (depth : Nat) (locals : List String) :
    Never (lowerSection sc depth index locals) := by
  induction depth generalizing index locals with
  | zero => exact fun _ => rfl
  | succ depth ih =>
    obtain ⟨j, ⟨decl, name, hdecl, hname, hj⟩, hcircular⟩ := h.next
    rw [lowerSection, hdecl]
    exact (Never.lowerStmts locals decl.body ⟨name, hname, j, hj, fun ls => ih hcircular ls⟩).bind _

/-! ### Units -/

/-- A step leaves a section open that was open before. -/
def KeepsOpen (index : Nat) (x : Lower α) : Prop :=
  ∀ s a s', x s = some (a, s') → (s.sections[index]?).join = none → (s'.sections[index]?).join = none

theorem keepsOpen_composes (index : Nat) : Composes (KeepsOpen index) where
  pure _ _ _ _ h := by
    cases h
    exact id
  bind hx hf s b s'' h hopen := by
    obtain ⟨a, s', hxs, hfs⟩ := run_bind h
    exact hf a s' b s'' hfs (hx s a s' hxs hopen)
  aside {_ x} hx s a s' h hopen := by
    have hrun : x s = (a, s') := Option.some.inj h
    have hsections := hx s
    rw [hrun] at hsections
    rwa [hsections]

/-- A section on a circle stays open: it is not lowered, and lowering others does not change it. -/
theorem keepsOpen_lowerSection (h : Circular sc.sections index) (depth other : Nat) (locals : List String) :
    KeepsOpen index (lowerSection sc depth other locals) := by
  induction depth generalizing other locals with
  | zero =>
    intro s a s' hs
    cases hs
  | succ depth ih =>
    by_cases hother : other = index
    · intro s a s' hs
      rw [hother, never_lowerSection h] at hs
      cases hs
    · rw [lowerSection]
      split
      · exact (keepsOpen_composes index).pure _
      · refine (keepsOpen_composes index).bind ((keepsOpen_composes index).lowerStmts locals _ fun _ _ j _ ls => ih j ls) ?_
        intro body s a s' hs hopen
        cases hs
        rwa [List.getElem?_set_ne hother]

theorem lowerLeft_succ (depth n first : Nat) (s : Findings) : lowerLeft sc depth (n + 1) first s =
    if (s.sections[first]?).join.isNone then (do lowerSection sc depth first []; lowerLeft sc depth n (first + 1)) s
    else lowerLeft sc depth n (first + 1) s := by
  rw [lowerLeft]
  change (do
    if (s.sections[first]?).join.isNone then lowerSection sc depth first []
    lowerLeft sc depth n (first + 1) : Lower PUnit) s = _
  split <;> rfl

theorem returns_lowerLeft (hsound : ∀ j, ¬Circular sc.sections j) (n first : Nat) (hlt : first + n ≤ sc.sections.length) :
    Returns (lowerLeft sc sc.sections.length n first) := by
  induction n generalizing first with
  | zero => exact fun _ => rfl
  | succ n ih =>
    intro s
    have hleft := ih (first + 1) (by omega)
    rw [lowerLeft_succ]
    split
    · have hsection : Returns (lowerSection sc sc.sections.length first []) :=
        returns_lowerSection hsound List.nodup_nil (fun k hk => by cases hk) (by omega) (by simp) []
      exact returns_composes.bind hsection (fun _ => hleft) s
    · exact hleft s

/-- Sections that are left open and on a circle are not lowered in the end either. -/
theorem lowerLeft_eq_none (h : Circular sc.sections index) {depth n first : Nat} {s : Findings} (hle : first ≤ index)
    (hlt : index < first + n) (hopen : (s.sections[index]?).join = none) : lowerLeft sc depth n first s = none := by
  induction n generalizing first s with
  | zero => omega
  | succ n ih =>
    rw [lowerLeft_succ]
    rcases Nat.eq_or_lt_of_le hle with rfl | hbefore
    · rw [if_pos (by rw [hopen]; rfl)]
      exact (never_lowerSection h depth []).bind _ s
    · split
      · refine run_bind_none fun a s' hsection => ih (by omega) (by omega) ?_
        exact keepsOpen_lowerSection h depth first [] s a s' hsection hopen
      · exact ih (by omega) (by omega) hopen

theorem sections_lowerFunctions (decls : List FunctionDecl) (s : Findings) :
    ((decls.mapM (lowerFunction sc)) s).2.sections = s.sections :=
  sections_of_sound (sound_lowerFunctions decls) s

variable {o : Outline} {noExecute : SourcePos}

theorem returns_lowerOutline (hsections : o.sections = sc.sections) (hsound : ∀ j, ¬Circular sc.sections j) :
    Returns (lowerOutline sc o noExecute) := by
  have hsection : ∀ j, j < sc.sections.length → ∀ ls, Returns (lowerSection sc sc.sections.length j ls) := fun j hj ls =>
    returns_lowerSection hsound List.nodup_nil (fun k hk => by cases hk) hj (by simp) ls
  have hleft : ∀ functions : List Ir.Function, ∀ body : List Ir.Stmt, Returns (do
      lowerLeft sc sc.sections.length sc.sections.length 0
      return (functions, body) : Lower (List Ir.Function × List Ir.Stmt)) := fun _ _ =>
    returns_composes.bind (returns_lowerLeft hsound _ 0 (by omega)) fun _ => returns_composes.pure _
  unfold lowerOutline
  rw [hsections]
  refine returns_composes.bind (returns_composes.aside (sections_lowerFunctions o.functions)) fun functions => ?_
  dsimp only
  split
  · rename_i body _
    refine returns_composes.bind (returns_composes.lowerStmts [] body fun n _ j hj ls => ?_) (hleft functions)
    exact hsection j (List.findIdx?_eq_some_iff_getElem.mp hj).1 ls
  · exact returns_composes.bind (returns_composes.aside fun _ => rfl) fun _ => hleft functions []

/-- A section on a circle is open when its turn comes at last. -/
theorem lowerOutline_eq_none (hsections : o.sections = sc.sections) (h : Circular sc.sections index) {s : Findings}
    (hopen : (s.sections[index]?).join = none) : lowerOutline sc o noExecute s = none := by
  have hkeeps := keepsOpen_composes index
  obtain ⟨j, hnext, -⟩ := h.next
  have hleft : ∀ functions : List Ir.Function, ∀ body : List Ir.Stmt, ∀ s' : Findings,
      (s'.sections[index]?).join = none → (do
        lowerLeft sc sc.sections.length sc.sections.length 0
        return (functions, body) : Lower (List Ir.Function × List Ir.Stmt)) s' = none := by
    refine fun functions body s' hopen => run_bind_none fun _ _ hrun => ?_
    rw [lowerLeft_eq_none h (Nat.zero_le _) (by simpa using hnext.lt.1) hopen] at hrun
    cases hrun
  unfold lowerOutline
  rw [hsections]
  refine run_bind_none fun functions s₁ hfunctions => ?_
  have hopen₁ := hkeeps.aside (sections_lowerFunctions o.functions) s functions s₁ hfunctions hopen
  dsimp only
  cases o.execute with
  | none =>
    exact run_bind_none fun _ s₂ hreport => hleft functions [] s₂ (hkeeps.aside (fun _ => rfl) s₁ _ s₂ hreport hopen₁)
  | some execute =>
    refine run_bind_none fun body s₂ hbody => hleft functions body s₂ ?_
    have hstmts : KeepsOpen index (lowerStmts sc (lowerSection sc sc.sections.length) [] execute) :=
      hkeeps.lowerStmts [] execute fun _ _ j _ ls => keepsOpen_lowerSection h _ j ls
    exact hstmts s₁ body s₂ hbody hopen₁

variable {t : Tree} {options : LoweringOptions} {references : List Reference}

theorem Tree.lower?_eq_none (h : Circular t.outline.sections index) : t.lower? options references = none := by
  have hopen : ((t.start options references).sections[index]?).join = none := by
    simp only [Tree.start, List.getElem?_map]
    cases t.outline.sections[index]? <;> rfl
  rw [Tree.lower?_eq, lowerOutline_eq_none rfl h hopen]
  rfl

theorem Tree.lower?_returns (h : ∀ i, ¬Circular t.outline.sections i) : (t.lower? options references).isSome := by
  obtain ⟨⟨r, s⟩, hrun⟩ := Option.isSome_iff_exists.mp
    (returns_lowerOutline (show t.outline.sections = (t.scope options references).sections from rfl) h
      (t.start options references))
  rw [Tree.lower?_eq, hrun, Option.bind_some]
  dsimp only
  split <;> rfl

/-- Lowering a unit ends exactly if its sections register each other without a circle, wherever the registrations stand.
No depth is enough for a section on a circle, so that lowering it would go on for ever. -/
theorem Tree.lower?_isSome_iff (t : Tree) (options : LoweringOptions) (references : List Reference) :
    ((t.lower? options references).isSome ↔ ∀ i, ¬Circular t.outline.sections i) ∧
    ∀ i, Circular t.outline.sections i → ∀ depth locals s,
      lowerSection (t.scope options references) depth i locals s = none := by
  refine ⟨⟨fun hsome i hi => ?_, Tree.lower?_returns⟩, fun i hi => never_lowerSection hi⟩
  rw [Tree.lower?_eq_none hi] at hsome
  cases hsome

/-- A unit with a section that registers itself. -/
def selfRegistering : String :=
  "internal class T : TemplateBase<dynamic> \x7b section \"A\" \x7b define_section \"A\"; \x7d " ++
    "execute \x7b define_section \"A\"; \x7d \x7d"

theorem Tree.lower?_isSome_iff_selfRegistering : ∃ t, Tree.ofSource selfRegistering = .ok t ∧
    Circular t.outline.sections 0 ∧ (∀ options references, t.lower? options references = none) ∧
    ∀ depth locals s, lowerSection (t.scope {} []) depth 0 locals s = none := by
  obtain ⟨t, hread, hself⟩ : ∃ t, Tree.ofSource selfRegistering = .ok t ∧ Registers t.outline.sections 0 0 :=
    ⟨_, by cbv, _, "A", rfl, by decide, by decide⟩
  have hcircular : Circular t.outline.sections 0 := .single hself
  refine ⟨t, hread, hcircular, fun options references => ?_, (t.lower?_isSome_iff {} []).2 0 hcircular⟩
  exact Option.not_isSome_iff_eq_none.mp fun hsome => (t.lower?_isSome_iff options references).1.mp hsome 0 hcircular

end Stencil.Unit
