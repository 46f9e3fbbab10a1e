import Stencil.Proofs.Unit.Translation

/-! How often sections are lowered.

A section is lowered with the locals in scope wherever it is registered, so once for each registration that lowering
comes to, and the module holds what the last lowering gave. Without an error every one of them has given something, so
the body of a section stands for something under the scope of each of its registrations. -/

namespace Stencil.Unit

/-! ### Registrations and their scopes -/

mutual

/-- The sections that a statement registers, by their indices, with the locals in scope there. -/
def Stmt.sites (sc : Scope) (ls : List String) : Stmt → List (Nat × List String)
  | .defineSection n => ((sc.sections.findIdx? (·.name.name == n.name)).map (·, ls)).toList
  | .ifElse branches otherwise _ => branchSites sc ls branches ++ blockSites sc ls otherwise
  | .forEach var _ body _ => sites sc (var.name :: ls) body
  | .write _ | .emit .. | .var .. => []

def branchSites (sc : Scope) (ls : List String) : List Branch → List (Nat × List String)
  | [] => []
  | .mk _ body :: rest => sites sc ls body ++ branchSites sc ls rest

def blockSites (sc : Scope) (ls : List String) : Option (List Stmt) → List (Nat × List String)
  | none => []
  | some body => sites sc ls body

/-- The sections that statements register, at any depth and in the order of the text. -/
def sites (sc : Scope) (ls : List String) : List Stmt → List (Nat × List String)
  | [] => []
  | s :: ss => s.sites sc ls ++ sites sc (s.binds ++ ls) ss

end

/-- The lowerings that registrations lead to, in the order in which they end. Those that the body of a section leads to
end before its own. -/
inductive Lowers (sc : Scope) : List (Nat × List String) → List (Nat × List String) → Prop
  | nil : Lowers sc [] []
  | cons {index : Nat} {ls : List String} {decl : SectionDecl} {regs inner later : List (Nat × List String)}
      (hd : sc.sections[index]? = some decl) (hb : Lowers sc (sites sc ls decl.body) inner)
      (hr : Lowers sc regs later) : Lowers sc ((index, ls) :: regs) (inner ++ (index, ls) :: later)

/-- What is lowered if some sections have been lowered already: the others from an index on, without locals. -/
inductive LowersLeft (sc : Scope) : Nat → List (Nat × List String) → List (Nat × List String) → Prop
  | ended {done : List (Nat × List String)} : LowersLeft sc sc.sections.length done done
  | passed {index : Nat} {ls : List String} {done all : List (Nat × List String)} (hp : (index, ls) ∈ done)
      (hr : LowersLeft sc (index + 1) done all) : LowersLeft sc index done all
  | left {index : Nat} {done new all : List (Nat × List String)} (hp : ∀ ls, (index, ls) ∉ done)
      (hl : Lowers sc [(index, [])] new) (hr : LowersLeft sc (index + 1) (done ++ new) all) :
      LowersLeft sc index done all

/-- The lowerings of sections, for a class with an execute block. -/
inductive LowersAll (sc : Scope) (execute : List Stmt) (all : List (Nat × List String)) : Prop
  | mk {done : List (Nat × List String)} (hb : Lowers sc (sites sc [] execute) done) (hl : LowersLeft sc 0 done all)

/-- The locals in scope at the last lowering of a section. -/
def lastScope? (all : List (Nat × List String)) (index : Nat) : Option (List String) :=
  (all.reverse.find? (·.1 == index)).map (·.2)

variable {sc : Scope}

section
variable {regs regs' done done' all : List (Nat × List String)} {index : Nat} {ls : List String}

theorem Lowers.append (h : Lowers sc regs done) (h' : Lowers sc regs' done') : Lowers sc (regs ++ regs') (done ++ done') := by
  induction h with
  | nil => exact h'
  | cons hd hb _ _ ih =>
    rw [List.cons_append, List.append_assoc, List.cons_append]
    exact .cons hd hb ih

/-- Each registration leads to a lowering of its section. -/
theorem Lowers.subset (h : Lowers sc regs done) : regs ⊆ done := by
  induction h with
  | nil => exact List.nil_subset _
  | cons hd hb hr _ ih =>
    refine List.cons_subset.mpr ⟨List.mem_append_right _ List.mem_cons_self, ?_⟩
    exact fun r hr => List.mem_append_right _ (List.mem_cons_of_mem _ (ih hr))

/-- Lowering a section has led to lowering those that its body registers. -/
def Complete (sc : Scope) (done : List (Nat × List String)) : Prop :=
  ∀ r ∈ done, ∀ decl, sc.sections[r.1]? = some decl → sites sc r.2 decl.body ⊆ done

theorem Complete.append (h : Complete sc done) (h' : Complete sc done') : Complete sc (done ++ done') := by
  intro r hr decl hd q hq
  rcases List.mem_append.mp hr with hr | hr
  · exact List.mem_append_left _ (h r hr decl hd hq)
  · exact List.mem_append_right _ (h' r hr decl hd hq)

theorem Lowers.complete (h : Lowers sc regs done) : Complete sc done := by
  induction h with
  | nil => exact fun r hr => absurd hr List.not_mem_nil
  | @cons index ls decl _ _ _ hd hb _ ihb ihr =>
    intro r hr decl' hd' q hq
    rcases List.mem_append.mp hr with hr | hr
    · exact List.mem_append_left _ (ihb r hr decl' hd' hq)
    rcases List.mem_cons.mp hr with rfl | hr
    · obtain rfl : decl = decl' := Option.some.inj (hd.symm.trans hd')
      exact List.mem_append_left _ (hb.subset hq)
    · exact List.mem_append_right _ (List.mem_cons_of_mem _ (ihr r hr decl' hd' hq))

theorem LowersLeft.subset (h : LowersLeft sc index done all) : done ⊆ all := by
  induction h with
  | ended => exact List.Subset.refl _
  | passed _ _ ih => exact ih
  | left _ _ _ ih => exact fun r hr => ih (List.mem_append_left _ hr)

theorem LowersLeft.complete (h : LowersLeft sc index done all) (hd : Complete sc done) : Complete sc all := by
  induction h with
  | ended => exact hd
  | passed _ _ ih => exact ih hd
  | left _ hl _ ih => exact ih (hd.append hl.complete)

/-- Whatever the execute block registers is lowered, and then whatever is registered where a section is lowered. -/
theorem LowersAll.complete {execute : List Stmt} (h : LowersAll sc execute all) :
    sites sc [] execute ⊆ all ∧ Complete sc all := by
  obtain ⟨hb, hl⟩ := h
  exact ⟨fun r hr => hl.subset (hb.subset hr), hl.complete hb.complete⟩

theorem Lowers.unique (h : Lowers sc regs done) (h' : Lowers sc regs done') : done = done' := by
  induction h generalizing done' with
  | nil =>
    cases h'
    rfl
  | @cons _ _ decl _ _ _ hd _ _ ihb ihr =>
    cases h' with
    | @cons _ _ decl' _ _ _ hd' hb' hr' =>
      obtain rfl : decl = decl' := Option.some.inj (hd.symm.trans hd')
      rw [ihb hb', ihr hr']

theorem LowersLeft.le (h : LowersLeft sc index done all) : index ≤ sc.sections.length := by
  induction h with
  | ended => exact Nat.le_refl _
  | passed _ _ ih | left _ _ _ ih => omega

theorem LowersLeft.unique {all' : List (Nat × List String)} (h : LowersLeft sc index done all)
    (h' : LowersLeft sc index done all') : all = all' := by
  induction h with
  | ended =>
    cases h' with
    | ended => rfl
    | passed _ hr | left _ _ hr => exact absurd hr.le (by omega)
  | passed hp hr ih =>
    cases h' with
    | ended => exact absurd hr.le (by omega)
    | passed _ hr' => exact ih hr'
    | left hp' _ _ => exact absurd hp (hp' _)
  | left hp hl hr ih =>
    cases h' with
    | ended => exact absurd hr.le (by omega)
    | passed hp' _ => exact absurd hp' (hp _)
    | left _ hl' hr' =>
      obtain rfl := hl.unique hl'
      exact ih hr'

/-- The execute block determines the lowerings of all sections. -/
theorem LowersAll.unique {execute : List Stmt} {all' : List (Nat × List String)} (h : LowersAll sc execute all)
    (h' : LowersAll sc execute all') : all = all' := by
  obtain ⟨hb, hl⟩ := h
  obtain ⟨hb', hl'⟩ := h'
  obtain rfl := hb.unique hb'
  exact hl.unique hl'

theorem lastScope?_append (done done' : List (Nat × List String)) (index : Nat) :
    lastScope? (done ++ done') index = (lastScope? done' index).or (lastScope? done index) := by
  rw [lastScope?, List.reverse_append, List.find?_append, Option.map_or]
  rfl

end

/-! ### Findings -/

/-- What is found for a section stands for its body under some locals. -/
def Translated (sc : Scope) (s : Findings) (index : Nat) (ls : List String) : Prop :=
  ∃ decl body, sc.sections[index]? = some decl ∧ s.sections[index]? = some (some ⟨decl.name.name, body⟩) ∧
    Translates sc (.ofImports s.imports) ls decl.body body

theorem Translated.later {references : List Reference} {s s' : Findings} {index : Nat} {ls : List String}
    (h : Translated sc s index ls) (he : s.Extends references s') (hs : s'.sections[index]? = s.sections[index]?) :
    Translated sc s' index ls := by
  obtain ⟨decl, body, hd, hb, ht⟩ := h
  exact ⟨decl, body, hd, hs ▸ hb, ht.mono (Linkage.ofImports_mono sc he.imports)⟩

/-- What lowerings leave behind: of each section what its last lowering gave. Each lowering gave something that stands
for the body of its section. -/
structure Leaves (sc : Scope) (done : List (Nat × List String)) (s s' : Findings) : Prop where
  kept : ∀ index, lastScope? done index = none → s'.sections[index]? = s.sections[index]?
  last : ∀ index ls, lastScope? done index = some ls → Translated sc s' index ls
  each : ∀ r ∈ done, ∃ decl body, sc.sections[r.1]? = some decl ∧
    Translates sc (.ofImports s'.imports) r.2 decl.body body

theorem Leaves.none {s s' : Findings} (h : s'.sections = s.sections) : Leaves sc [] s s' where
  kept _ _ := by rw [h]
  last _ _ h := by cases h
  each r hr := absurd hr List.not_mem_nil

theorem Leaves.append {s s' s'' : Findings} {done done' : List (Nat × List String)} (h : Leaves sc done s s')
    (he : s'.Extends sc.references s'') (h' : Leaves sc done' s' s'') : Leaves sc (done ++ done') s s'' where
  kept index hnone := by
    rw [lastScope?_append, Option.or_eq_none_iff] at hnone
    rw [h'.kept index hnone.1, h.kept index hnone.2]
  last index ls hlast := by
    rw [lastScope?_append, Option.or_eq_some_iff] at hlast
    rcases hlast with hlast | ⟨hnone, hlast⟩
    · exact h'.last index ls hlast
    · exact (h.last index ls hlast).later he (h'.kept index hnone)
  each r hr := by
    rcases List.mem_append.mp hr with hr | hr
    · obtain ⟨decl, body, hd, ht⟩ := h.each r hr
      exact ⟨decl, body, hd, ht.mono (Linkage.ofImports_mono sc he.imports)⟩
    · exact h'.each r hr

/-- A step that extends the findings and, if there is no error, gives what it should and leaves what the lowerings leave
that registrations lead to. -/
def Settles (sc : Scope) (x : Lower α) (regs : List (Nat × List String)) (P : List Ir.Import → α → Prop) : Prop :=
  ∀ s a s', x s = some (a, s') → s.sections.length = sc.sections.length →
    s.Extends sc.references s' ∧
      (s'.Clean → P s'.imports a ∧ ∃ done, Lowers sc regs done ∧ Leaves sc done s s')

namespace Settles

variable {P : List Ir.Import → α → Prop} {Q : List Ir.Import → β → Prop} {regs regs' : List (Nat × List String)}

theorem of_sound {x : Lower α} (h : Sound sc x P) : Settles sc x [] P := by
  intro s a s' hs _
  obtain ⟨he, hsections, hp⟩ := h s a s' hs
  exact ⟨he, fun hc => ⟨hp hc, [], .nil, .none hsections⟩⟩

theorem pure {a : α} (h : ∀ is, P is a) : Settles sc (Pure.pure a : Lower α) [] P := of_sound (.pure h)

theorem bind {x : Lower α} {f : α → Lower β} (hx : Settles sc x regs P) (hP : Lasting P)
    (hf : ∀ a, Settles sc (f a) regs' fun is b => P is a → Q is b) : Settles sc (x >>= f) (regs ++ regs') Q := by
  intro s b s'' hs hlen
  obtain ⟨a, s', hx', hf'⟩ := run_bind hs
  obtain ⟨he, hdone⟩ := hx s a s' hx' hlen
  obtain ⟨he', hdone'⟩ := hf a s' b s'' hf' (he.sections.trans hlen)
  refine ⟨he.trans he', fun hc => ?_⟩
  obtain ⟨hp, done, hl, hleaves⟩ := hdone (he'.clean hc)
  obtain ⟨hq, done', hl', hleaves'⟩ := hdone' hc
  exact ⟨hq (hP _ _ _ he'.imports hp), done ++ done', hl.append hl', hleaves.append he' hleaves'⟩

theorem bind_pure {x : Lower α} {f : α → β} (hx : Settles sc x regs P) (hP : Lasting P)
    (hf : ∀ is a, P is a → Q is (f a)) : Settles sc (do return f (← x)) regs Q := by
  have := hx.bind hP fun a => Settles.pure (a := f a) fun is => hf is a
  rwa [List.append_nil] at this

theorem sound_bind {x : Lower α} {f : α → Lower β} (hx : Sound sc x P) (hP : Lasting P)
    (hf : ∀ a, Settles sc (f a) regs fun is b => P is a → Q is b) : Settles sc (x >>= f) regs Q :=
  (of_sound hx).bind hP hf

end Settles

theorem lasting_translates {ls : List String} {ss : List Stmt} :
    Lasting fun is ss' => Translates sc (.ofImports is) ls ss ss' :=
  fun _ _ _ hp h => h.mono (Linkage.ofImports_mono sc hp)

theorem lasting_translatesBranches {ls : List String} {branches : List Branch} :
    Lasting fun is bs => TranslatesBranches sc (.ofImports is) ls branches bs :=
  fun _ _ _ hp h => h.mono (Linkage.ofImports_mono sc hp)

theorem lasting_translatesBlock {ls : List String} {otherwise : Option (List Stmt)} :
    Lasting fun is body => TranslatesBlock sc (.ofImports is) ls otherwise body :=
  fun _ _ _ hp h => h.mono (Linkage.ofImports_mono sc hp)

def TranslationOf (sc : Scope) (ls : List String) (s : Stmt) (is : List Ir.Import) (s' : Option Ir.Stmt) : Prop :=
  ∃ i, s' = some i ∧ TranslatesStmt sc (.ofImports is) ls s i

theorem lasting_translationOf {ls : List String} {s : Stmt} : Lasting (TranslationOf sc ls s) := by
  rintro _ _ _ hp ⟨i, rfl, h⟩
  exact ⟨i, rfl, h.mono (Linkage.ofImports_mono sc hp)⟩

/-- Lowering a section settles it. -/
def SettlesSections (sc : Scope) (lowerSection : SectionLowering) : Prop :=
  ∀ index ls, index < sc.sections.length → Settles sc (lowerSection index ls) [(index, ls)] fun _ _ => True

variable {lowerSection : SectionLowering}

mutual

theorem settles_lowerStmt (hsec : SettlesSections sc lowerSection) (ls : List String) :
    (s : Stmt) → Settles sc (lowerStmt sc lowerSection ls s) (s.sites sc ls) (TranslationOf sc ls s)
  | .write text => by
    rw [lowerStmt]
    exact .pure fun _ => ⟨_, rfl, .write text⟩
  | .emit e pos => by
    rw [lowerStmt]
    exact (Settles.of_sound (sound_lowerExpr ls e)).bind_pure lasting_resolves fun _ _ he => ⟨_, rfl, .emit he⟩
  | .var n e pos => by
    rw [lowerStmt]
    exact (Settles.of_sound (sound_lowerExpr ls e)).bind_pure lasting_resolves fun _ _ he => ⟨_, rfl, .var he⟩
  | .ifElse branches none pos => by
    rw [lowerStmt]
    refine (settles_lowerBranches hsec ls branches).bind lasting_translatesBranches fun bs => ?_
    exact .pure fun _ hb => ⟨_, rfl, .ifElse hb .none⟩
  | .ifElse branches (some body) pos => by
    rw [lowerStmt]
    refine (settles_lowerBranches hsec ls branches).bind lasting_translatesBranches fun bs => ?_
    have hblock : Settles sc (some <$> lowerStmts sc lowerSection ls body) (blockSites sc ls (some body))
        fun is body' => TranslatesBlock sc (.ofImports is) ls (some body) body' :=
      (settles_lowerStmts hsec ls body).bind_pure lasting_translates fun _ _ hs => .some hs
    exact hblock.bind_pure lasting_translatesBlock fun _ _ ho hb => ⟨_, rfl, .ifElse hb ho⟩
  | .forEach n source body pos => by
    rw [lowerStmt]
    refine Settles.sound_bind (sound_lowerExpr ls source) lasting_resolves fun e' => ?_
    exact (settles_lowerStmts hsec (n.name :: ls) body).bind_pure lasting_translates fun _ _ hb he => ⟨_, rfl, .forEach he hb⟩
  | .defineSection n => by
    rw [lowerStmt, Stmt.sites]
    cases hf : sc.sections.findIdx? (·.name.name == n.name) with
    | none =>
      refine Settles.sound_bind (P := fun _ _ => False) (Sound.report rfl) (fun _ _ _ _ h => h) fun _ => ?_
      exact .pure fun _ h => h.elim
    | some index =>
      have hlt : index < sc.sections.length := (List.findIdx?_eq_some_iff_getElem.mp hf).1
      exact (hsec index ls hlt).bind_pure (fun _ _ _ _ h => h) fun _ _ _ => ⟨_, rfl, .register hf⟩

theorem settles_lowerBranches (hsec : SettlesSections sc lowerSection) (ls : List String) : (branches : List Branch) →
    Settles sc (lowerBranches sc lowerSection ls branches) (branchSites sc ls branches)
      fun is bs => TranslatesBranches sc (.ofImports is) ls branches bs
  | [] => by
    rw [lowerBranches]
    exact .pure fun _ => .nil
  | .mk cond body :: rest => by
    rw [lowerBranches]
    refine Settles.sound_bind (sound_lowerExpr ls cond) lasting_resolves fun cond' => ?_
    refine (settles_lowerStmts hsec ls body).bind lasting_translates fun ss => ?_
    exact (settles_lowerBranches hsec ls rest).bind_pure lasting_translatesBranches fun _ _ hs hb hc => .cons hc hb hs

/-- Lowering statements lowers the sections that they register, and gives what they stand for. -/
theorem settles_lowerStmts (hsec : SettlesSections sc lowerSection) (ls : List String) : (ss : List Stmt) →
    Settles sc (lowerStmts sc lowerSection ls ss) (sites sc ls ss)
      fun is ss' => Translates sc (.ofImports is) ls ss ss'
  | [] => by
    rw [lowerStmts]
    exact .pure fun _ => .nil
  | s :: ss => by
    rw [lowerStmts_cons]
    refine (settles_lowerStmt hsec ls s).bind lasting_translationOf fun s' => ?_
    refine (settles_lowerStmts hsec (s.binds ++ ls) ss).bind_pure lasting_translates ?_
    rintro is ss' hr ⟨i, rfl, hs⟩
    exact .cons hs hr

end

/-- The body of a module, and what it holds for each section: what the body of the section stands for under the scope of
its last lowering. -/
structure Assembled (sc : Scope) (k : Linkage) (execute : List Stmt) (all : List (Nat × List String)) (m : Ir.Module) :
    Prop where
  body : Translates sc k [] execute m.body
  sections : ∀ index decl, sc.sections[index]? = some decl → ∃ ls body, lastScope? all index = some ls ∧
    m.sections[index]? = some ⟨decl.name.name, body⟩ ∧ Translates sc k ls decl.body body

end Stencil.Unit
