import Stencil.Proofs.Unit.Derivations
import Stencil.Proofs.Unit.Places

/-! Units apart from where they stand.

Tokens that differ in their places alone spell units that differ in their places alone. Pragmas give places too. So if
pragmas are put where they may stand among the tokens of a unit, and the tokens moved to other places, then what is read is
the same unit at other places. -/

namespace Stencil.Unit

/-! ### Trees at other places -/

section
variable (r : SourcePos → SourcePos)

/-- The name at another place. -/
def Named.move (n : Named) : Named := ⟨n.name, r n.pos⟩

mutual

/-- The expression at other places. -/
def Expr.move : Expr → Expr
  | .literal v pos => .literal v (r pos)
  | .name n pos => .name n (r pos)
  | .member target n => .member target.move (n.move r)
  | .call target args => .call target.move (moveAll args)
  | .not e pos => .not e.move (r pos)
  | .binary op lhs rhs => .binary op lhs.move rhs.move

def Expr.moveAll : List Expr → List Expr
  | [] => []
  | e :: es => e.move :: moveAll es

end

mutual

/-- The statement at other places, and at none in the template. -/
def Stmt.move : Stmt → Stmt
  | .write text => .write text
  | .emit e _ => .emit (e.move r) none
  | .var n e _ => .var (n.move r) (e.move r) none
  | .ifElse branches otherwise _ => .ifElse (moveBranches branches) (moveBlock otherwise) none
  | .forEach n source body _ => .forEach (n.move r) (source.move r) (moveStmts body) none
  | .defineSection n => .defineSection (n.move r)

def Branch.move : Branch → Branch
  | .mk cond body => .mk (cond.move r) (moveStmts body)

def moveBranches : List Branch → List Branch
  | [] => []
  | b :: bs => b.move :: moveBranches bs

def moveBlock : Option (List Stmt) → Option (List Stmt)
  | none => none
  | some body => some (moveStmts body)

def moveStmts : List Stmt → List Stmt
  | [] => []
  | s :: ss => s.move :: moveStmts ss

end

/-- The function at other places, and at none in the template. -/
def FunctionDecl.move (f : FunctionDecl) : FunctionDecl :=
  ⟨f.name.move r, f.params.map (Named.move r), f.body.move r, none⟩

/-- The section at other places, and at none in the template. -/
def SectionDecl.move (s : SectionDecl) : SectionDecl := ⟨s.name.move r, moveStmts r s.body⟩

/-- The member at other places, and at none in the template. -/
def Member.move : Member → Member
  | .layout key inherited pos => .layout key inherited (r pos)
  | .function decl => .function (decl.move r)
  | .sectionDecl decl => .sectionDecl (decl.move r)
  | .execute body pos => .execute (moveStmts r body) (r pos)

/-- The class at other places, and at none in the template. -/
def ClassDecl.move (d : ClassDecl) : ClassDecl :=
  ⟨d.name.move r, d.base.move r, d.model.move r, d.members.map (Member.move r)⟩

/-- The unit at other places, and at none in the template. -/
def Tree.move (t : Tree) : Tree := ⟨t.space, t.usings.map (Named.move r), t.decl.move r⟩

mutual

/-- What has been taken away from the template's places does not matter for the others. -/
theorem Stmt.move_eraseTemplates : (s : Stmt) → s.eraseTemplates.move r = s.move r
  | .write _ | .emit _ _ | .var _ _ _ | .defineSection _ => rfl
  | .ifElse branches otherwise _ => by
    rw [Stmt.eraseTemplates, Stmt.move, Stmt.move, moveBranches_eraseBranches branches, moveBlock_eraseBlock otherwise]
  | .forEach _ _ body _ => by rw [Stmt.eraseTemplates, Stmt.move, Stmt.move, moveStmts_eraseStmts body]

theorem moveBranches_eraseBranches : (bs : List Branch) → moveBranches r (eraseBranches bs) = moveBranches r bs
  | [] => rfl
  | .mk cond body :: bs => by
    rw [eraseBranches, moveBranches, moveBranches, Branch.eraseTemplates, Branch.move, Branch.move,
      moveStmts_eraseStmts body, moveBranches_eraseBranches bs]

theorem moveBlock_eraseBlock : (otherwise : Option (List Stmt)) → moveBlock r (eraseBlock otherwise) = moveBlock r otherwise
  | none => rfl
  | some body => by rw [eraseBlock, moveBlock, moveBlock, moveStmts_eraseStmts body]

theorem moveStmts_eraseStmts : (ss : List Stmt) → moveStmts r (eraseStmts ss) = moveStmts r ss
  | [] => rfl
  | s :: ss => by rw [eraseStmts, moveStmts, moveStmts, s.move_eraseTemplates, moveStmts_eraseStmts ss]

end

theorem Member.move_eraseTemplates (m : Member) : m.eraseTemplates.move r = m.move r := by
  cases m with
  | layout | function => rfl
  | sectionDecl decl =>
    rw [Member.eraseTemplates, Member.move, Member.move, SectionDecl.move, SectionDecl.move, moveStmts_eraseStmts]
  | execute body pos => rw [Member.eraseTemplates, Member.move, Member.move, moveStmts_eraseStmts]

theorem Tree.move_eraseTemplates (t : Tree) : t.eraseTemplates.move r = t.move r := by
  have hmembers : (t.decl.members.map Member.eraseTemplates).map (Member.move r) = t.decl.members.map (Member.move r) := by
    rw [List.map_map]
    exact List.map_congr_left fun m _ => m.move_eraseTemplates r
  rw [Tree.move, Tree.eraseTemplates, ClassDecl.move, hmembers]
  rfl

end

/-! ### Trees that stay where they are -/

mutual

theorem Expr.move_id : (e : Expr) → e.move id = e
  | .literal _ _ | .name _ _ => rfl
  | .member target n => by
    rw [Expr.move, target.move_id]
    rfl
  | .call target args => by rw [Expr.move, target.move_id, Expr.moveAll_id args]
  | .not e _ => by
    rw [Expr.move, e.move_id]
    rfl
  | .binary _ lhs rhs => by rw [Expr.move, lhs.move_id, rhs.move_id]

theorem Expr.moveAll_id : (es : List Expr) → Expr.moveAll id es = es
  | [] => rfl
  | e :: es => by rw [Expr.moveAll, e.move_id, Expr.moveAll_id es]

end

theorem Named.move_id : Named.move id = id := rfl

mutual

/-- Where places stay the same, those in the template are taken away alone. -/
theorem Stmt.move_id : (s : Stmt) → s.move id = s.eraseTemplates
  | .write _ | .defineSection _ => rfl
  | .emit e _ => by rw [Stmt.move, Stmt.eraseTemplates, e.move_id]
  | .var n e _ => by
    rw [Stmt.move, Stmt.eraseTemplates, e.move_id]
    rfl
  | .ifElse branches otherwise _ => by
    rw [Stmt.move, Stmt.eraseTemplates, moveBranches_id branches, moveBlock_id otherwise]
  | .forEach n source body _ => by
    rw [Stmt.move, Stmt.eraseTemplates, source.move_id, moveStmts_id body]
    rfl

theorem moveBranches_id : (bs : List Branch) → moveBranches id bs = eraseBranches bs
  | [] => rfl
  | .mk cond body :: bs => by
    rw [moveBranches, eraseBranches, Branch.move, Branch.eraseTemplates, cond.move_id, moveStmts_id body, moveBranches_id bs]

theorem moveBlock_id : (otherwise : Option (List Stmt)) → moveBlock id otherwise = eraseBlock otherwise
  | none => rfl
  | some body => by rw [moveBlock, eraseBlock, moveStmts_id body]

theorem moveStmts_id : (ss : List Stmt) → moveStmts id ss = eraseStmts ss
  | [] => rfl
  | s :: ss => by rw [moveStmts, eraseStmts, s.move_id, moveStmts_id ss]

end

theorem Member.move_id (m : Member) : m.move id = m.eraseTemplates := by
  cases m with
  | layout => rfl
  | function decl =>
    rw [Member.move, Member.eraseTemplates, FunctionDecl.move, Named.move_id, List.map_id, decl.body.move_id]
    rfl
  | sectionDecl decl => rw [Member.move, Member.eraseTemplates, SectionDecl.move, moveStmts_id, Named.move_id]; rfl
  | execute body pos => rw [Member.move, Member.eraseTemplates, moveStmts_id]; rfl

theorem Tree.move_id (t : Tree) : t.move id = t.eraseTemplates := by
  have hmembers : t.decl.members.map (Member.move id) = t.decl.members.map Member.eraseTemplates :=
    List.map_congr_left fun m _ => m.move_id
  rw [Tree.move, Tree.eraseTemplates, ClassDecl.move, hmembers, Named.move_id, List.map_id]
  rfl

/-! ### Trees apart from their places -/

/-- One place for all. -/
def nowhere : SourcePos → SourcePos := fun _ => .start

mutual

theorem Expr.erasePlaces_eq : (e : Expr) → e.erasePlaces = e.move nowhere
  | .literal _ _ | .name _ _ => rfl
  | .member target n => by
    rw [Expr.erasePlaces, Expr.move, target.erasePlaces_eq]
    rfl
  | .call target args => by rw [Expr.erasePlaces, Expr.move, target.erasePlaces_eq, Expr.erasePlacesAll_eq args]
  | .not e _ => by
    rw [Expr.erasePlaces, Expr.move, e.erasePlaces_eq]
    rfl
  | .binary _ lhs rhs => by rw [Expr.erasePlaces, Expr.move, lhs.erasePlaces_eq, rhs.erasePlaces_eq]

theorem Expr.erasePlacesAll_eq : (es : List Expr) → Expr.erasePlacesAll es = Expr.moveAll nowhere es
  | [] => rfl
  | e :: es => by rw [Expr.erasePlacesAll, Expr.moveAll, e.erasePlaces_eq, Expr.erasePlacesAll_eq es]

end

theorem Named.name_of_move {m n : Named} (h : m.move nowhere = n.move nowhere) : m.name = n.name := (Named.mk.inj h).1

/-! ### Tokens at other places -/

namespace Grammar

theorem IsWord.relocate {w : String} {l l' : Lexeme} (h : IsWord w l) (hl : l'.token = l.token) : IsWord w l' :=
  Eq.trans hl h

theorem IsString.relocate {s : String} {l l' : Lexeme} (h : IsString s l) (hl : l'.token = l.token) : IsString s l' :=
  Eq.trans hl h

theorem IsName.moved {l l' : Lexeme} {n : Named} (h : IsName n l) (hl : l'.token = l.token) :
    ∃ n', IsName n' l' ∧ n'.move nowhere = n.move nowhere := h.relocate hl

theorem IsExpr.moved {k : Level} {ls ls' : List Lexeme} {e : Expr} (h : IsExpr k ls e) (ht : SameTokens ls' ls) :
    ∃ e', IsExpr k ls' e' ∧ e'.move nowhere = e.move nowhere := by
  obtain ⟨e', he', heq⟩ := h.relocate ht
  exact ⟨e', he', by rw [← e'.erasePlaces_eq, heq, e.erasePlaces_eq]⟩

section
variable {ls ls' : List Lexeme}

theorem IsPath.relocate {n : Named} (h : IsPath ls n) (ht : SameTokens ls' ls) :
    ∃ n', IsPath ls' n' ∧ n'.move nowhere = n.move nowhere := by
  induction h generalizing ls' with
  | name hn =>
    obtain ⟨l', _, rfl, hl, hr⟩ := ht.cons_right
    cases hr.nil_right
    obtain ⟨n', hn', heq⟩ := hn.moved hl
    exact ⟨n', .name hn', heq⟩
  | @dot _ _ _ m n _ hd hn ih =>
    obtain ⟨_, d', _, rfl, hs, hd', hr⟩ := ht.middle_right
    obtain ⟨l', _, rfl, hl, hr'⟩ := hr.cons_right
    cases hr'.nil_right
    obtain ⟨m', hm', hmeq⟩ := ih hs
    obtain ⟨n', hn', hneq⟩ := hn.moved hl
    refine ⟨_, .dot hm' (hd.relocate hd') hn', ?_⟩
    rw [Named.move, Named.move, Named.name_of_move hmeq, Named.name_of_move hneq]
    rfl

theorem IsNames.relocate {ns : List Named} (h : IsNames ls ns) (ht : SameTokens ls' ls) :
    ∃ ns', IsNames ls' ns' ∧ ns'.map (Named.move nowhere) = ns.map (Named.move nowhere) := by
  induction h generalizing ls' with
  | one hn =>
    obtain ⟨l', _, rfl, hl, hr⟩ := ht.cons_right
    cases hr.nil_right
    obtain ⟨n', hn', heq⟩ := hn.moved hl
    exact ⟨[n'], .one hn', congrArg (· :: []) heq⟩
  | cons hn hc _ ih =>
    obtain ⟨l', _, rfl, hl, hr⟩ := ht.cons_right
    obtain ⟨c', _, rfl, hc', hr'⟩ := hr.cons_right
    obtain ⟨n', hn', heq⟩ := hn.moved hl
    obtain ⟨ns', hns', hseq⟩ := ih hr'
    exact ⟨n' :: ns', .cons hn' (hc.relocate hc') hns', by rw [List.map_cons, List.map_cons, heq, hseq]⟩

theorem IsParams.relocate {ns : List Named} (h : IsParams ls ns) (ht : SameTokens ls' ls) :
    ∃ ns', IsParams ls' ns' ∧ ns'.map (Named.move nowhere) = ns.map (Named.move nowhere) := by
  cases h with
  | nil hc =>
    obtain ⟨c', _, rfl, hc', hr⟩ := ht.cons_right
    cases hr.nil_right
    exact ⟨[], .nil (hc.relocate hc'), rfl⟩
  | names hs hc =>
    obtain ⟨_, c', _, rfl, hls, hc', hr'⟩ := ht.middle_right
    cases hr'.nil_right
    obtain ⟨ns', hns', heq⟩ := hs.relocate hls
    exact ⟨ns', .names hns' (hc.relocate hc'), heq⟩

end

mutual

/-- Tokens at other places spell the same statement at other places. -/
theorem IsStmt.relocate {ls : List Lexeme} {s : Stmt} : IsStmt ls s → ∀ {ls'}, SameTokens ls' ls →
    ∃ s', IsStmt ls' s' ∧ s'.move nowhere = s.move nowhere
  | .write hk hl hs, _, ht => by
    obtain ⟨k', _, rfl, hk', hr⟩ := ht.cons_right
    obtain ⟨l', _, rfl, hl', hr⟩ := hr.cons_right
    obtain ⟨s', _, rfl, hs', hr⟩ := hr.cons_right
    cases hr.nil_right
    exact ⟨_, .write (hk.relocate hk') (hl.relocate hl') (hs.relocate hs'), rfl⟩
  | .emit hk he hs, _, ht => by
    obtain ⟨_, _, rfl, hr, hr'⟩ := ht.append_right
    obtain ⟨k', _, rfl, hk', hls⟩ := hr.cons_right
    obtain ⟨s', _, rfl, hs', hend⟩ := hr'.cons_right
    cases hend.nil_right
    obtain ⟨e', he', heq⟩ := he.moved hls
    exact ⟨_, .emit (hk.relocate hk') he' (hs.relocate hs'), by rw [Stmt.move, Stmt.move, heq]⟩
  | .var hk hn ha he hs, _, ht => by
    obtain ⟨_, _, rfl, hr, hr'⟩ := ht.append_right
    obtain ⟨k', _, rfl, hk', hr⟩ := hr.cons_right
    obtain ⟨l', _, rfl, hl', hr⟩ := hr.cons_right
    obtain ⟨a', _, rfl, ha', hls⟩ := hr.cons_right
    obtain ⟨s', _, rfl, hs', hend⟩ := hr'.cons_right
    cases hend.nil_right
    obtain ⟨n', hn', hneq⟩ := hn.moved hl'
    obtain ⟨e', he', heq⟩ := he.moved hls
    exact ⟨_, .var (hk.relocate hk') hn' (ha.relocate ha') he' (hs.relocate hs'),
      by rw [Stmt.move, Stmt.move, hneq, heq]⟩
  | .ifElse hk hb, _, ht => by
    obtain ⟨k', _, rfl, hk', hr⟩ := ht.cons_right
    obtain ⟨bs, otherwise, hb', hbs, ho⟩ := hb.relocate hr
    exact ⟨_, .ifElse (hk.relocate hk') hb', by rw [Stmt.move, Stmt.move, hbs, ho]⟩
  | .forEach hk ho hv hn hi he hc hb, _, ht => by
    obtain ⟨_, _, rfl, hr, hs'⟩ := ht.append_right
    obtain ⟨k', _, rfl, hk', hr⟩ := hr.cons_right
    obtain ⟨o', _, rfl, ho', hr⟩ := hr.cons_right
    obtain ⟨v', _, rfl, hv', hr⟩ := hr.cons_right
    obtain ⟨l', _, rfl, hl', hr⟩ := hr.cons_right
    obtain ⟨i', _, rfl, hi', hls⟩ := hr.cons_right
    obtain ⟨c', _, rfl, hc', hr⟩ := hs'.cons_right
    obtain ⟨n', hn', hneq⟩ := hn.moved hl'
    obtain ⟨e', he', heq⟩ := he.moved hls
    obtain ⟨ss, hb', hss⟩ := hb.relocate hr
    exact ⟨_, .forEach (hk.relocate hk') (ho.relocate ho') (hv.relocate hv') hn' (hi.relocate hi') he' (hc.relocate hc') hb',
      by rw [Stmt.move, Stmt.move, hneq, heq, hss]⟩
  | .defineSection hk hl hs, _, ht => by
    obtain ⟨k', _, rfl, hk', hr⟩ := ht.cons_right
    obtain ⟨l', _, rfl, hl', hr⟩ := hr.cons_right
    obtain ⟨s', _, rfl, hs', hr⟩ := hr.cons_right
    cases hr.nil_right
    exact ⟨_, .defineSection (hk.relocate hk') (hl.relocate hl') (hs.relocate hs'), rfl⟩

theorem IsAlternatives.relocate {ls : List Lexeme} {bs : List Branch} {otherwise : Option (List Stmt)} :
    IsAlternatives ls bs otherwise → ∀ {ls'}, SameTokens ls' ls → ∃ bs' otherwise', IsAlternatives ls' bs' otherwise' ∧
      moveBranches nowhere bs' = moveBranches nowhere bs ∧ moveBlock nowhere otherwise' = moveBlock nowhere otherwise
  | .last hb, _, ht => by
    obtain ⟨b', hb', heq⟩ := hb.relocate ht
    exact ⟨[b'], none, .last hb', congrArg (· :: []) heq, rfl⟩
  | .otherwise hb hk ho, _, ht => by
    obtain ⟨_, k', _, rfl, hs, hk', hr⟩ := ht.middle_right
    obtain ⟨b', hb', heq⟩ := hb.relocate hs
    obtain ⟨ss, ho', hss⟩ := ho.relocate hr
    exact ⟨[b'], some ss, .otherwise hb' (hk.relocate hk') ho', congrArg (· :: []) heq, congrArg some hss⟩
  | .cons hb hk hi ha, _, ht => by
    obtain ⟨_, k', _, rfl, hs, hk', hr⟩ := ht.middle_right
    obtain ⟨i', _, rfl, hi', hr⟩ := hr.cons_right
    obtain ⟨b', hb', heq⟩ := hb.relocate hs
    obtain ⟨bs', otherwise', ha', hbs, ho⟩ := ha.relocate hr
    exact ⟨b' :: bs', otherwise', .cons hb' (hk.relocate hk') (hi.relocate hi') ha',
      by rw [moveBranches, moveBranches, heq, hbs], ho⟩

theorem IsBranch.relocate {ls : List Lexeme} {b : Branch} : IsBranch ls b → ∀ {ls'}, SameTokens ls' ls →
    ∃ b', IsBranch ls' b' ∧ b'.move nowhere = b.move nowhere
  | .mk ho he hc hb, _, ht => by
    obtain ⟨_, _, rfl, hs, hs'⟩ := ht.append_right
    obtain ⟨o', _, rfl, ho', hls⟩ := hs.cons_right
    obtain ⟨c', _, rfl, hc', hr⟩ := hs'.cons_right
    obtain ⟨e', he', heq⟩ := he.moved hls
    obtain ⟨ss, hb', hss⟩ := hb.relocate hr
    exact ⟨_, .mk (ho.relocate ho') he' (hc.relocate hc') hb', by rw [Branch.move, Branch.move, heq, hss]⟩

theorem IsBlock.relocate {ls : List Lexeme} {ss : List Stmt} : IsBlock ls ss → ∀ {ls'}, SameTokens ls' ls →
    ∃ ss', IsBlock ls' ss' ∧ moveStmts nowhere ss' = moveStmts nowhere ss
  | .mk ho hs hc, _, ht => by
    obtain ⟨_, _, rfl, hr, hs'⟩ := ht.append_right
    obtain ⟨o', _, rfl, ho', hls⟩ := hr.cons_right
    obtain ⟨c', _, rfl, hc', hr⟩ := hs'.cons_right
    cases hr.nil_right
    obtain ⟨ss', hss', heq⟩ := hs.relocate hls
    exact ⟨ss', .mk (ho.relocate ho') hss' (hc.relocate hc'), heq⟩

theorem IsStmts.relocate {ls : List Lexeme} {ss : List Stmt} : IsStmts ls ss → ∀ {ls'}, SameTokens ls' ls →
    ∃ ss', IsStmts ls' ss' ∧ moveStmts nowhere ss' = moveStmts nowhere ss
  | .nil, _, ht => by
    cases ht.nil_right
    exact ⟨[], .nil, rfl⟩
  | .cons hs hr, _, ht => by
    obtain ⟨_, _, rfl, hl, hl'⟩ := ht.append_right
    obtain ⟨s', hs', heq⟩ := hs.relocate hl
    obtain ⟨ss', hss', hseq⟩ := hr.relocate hl'
    exact ⟨s' :: ss', .cons hs' hss', by rw [moveStmts, moveStmts, heq, hseq]⟩

end

section
variable {ls ls' : List Lexeme}

theorem IsMember.relocate {m : Member} (h : IsMember ls m) (ht : SameTokens ls' ls) :
    ∃ m', IsMember ls' m' ∧ m'.move nowhere = m.move nowhere := by
  cases h with
  | layout hk hl hs =>
    obtain ⟨k', _, rfl, hk', hr⟩ := ht.cons_right
    obtain ⟨l', _, rfl, hl', hr⟩ := hr.cons_right
    obtain ⟨s', _, rfl, hs', hr⟩ := hr.cons_right
    cases hr.nil_right
    exact ⟨_, .layout (hk.relocate hk') (hl.relocate hl') (hs.relocate hs'), rfl⟩
  | defaultLayout hd hk hl hs =>
    obtain ⟨d', _, rfl, hd', hr⟩ := ht.cons_right
    obtain ⟨k', _, rfl, hk', hr⟩ := hr.cons_right
    obtain ⟨l', _, rfl, hl', hr⟩ := hr.cons_right
    obtain ⟨s', _, rfl, hs', hr⟩ := hr.cons_right
    cases hr.nil_right
    exact ⟨_, .defaultLayout (hd.relocate hd') (hk.relocate hk') (hl.relocate hl') (hs.relocate hs'), rfl⟩
  | function hk hn ho hp ha he hs =>
    obtain ⟨_, s', _, rfl, hhead, hs', hend⟩ := ht.middle_right
    cases hend.nil_right
    obtain ⟨_, _, rfl, hsign, hbody⟩ := hhead.append_right
    obtain ⟨k', _, rfl, hk', hr⟩ := hsign.cons_right
    obtain ⟨l', _, rfl, hl', hr⟩ := hr.cons_right
    obtain ⟨o', _, rfl, ho', hps⟩ := hr.cons_right
    obtain ⟨a', _, rfl, ha', hls⟩ := hbody.cons_right
    obtain ⟨n', hn', hneq⟩ := hn.moved hl'
    obtain ⟨ps', hps', hpeq⟩ := hp.relocate hps
    obtain ⟨e', he', heq⟩ := he.moved hls
    refine ⟨_, .function (hk.relocate hk') hn' (ho.relocate ho') hps' (ha.relocate ha') he' (hs.relocate hs'), ?_⟩
    rw [Member.move, Member.move, FunctionDecl.move, FunctionDecl.move, hneq, hpeq, heq]
  | sectionDecl hk hl hb =>
    obtain ⟨k', _, rfl, hk', hr⟩ := ht.cons_right
    obtain ⟨l', _, rfl, hl', hr⟩ := hr.cons_right
    obtain ⟨ss, hb', hss⟩ := hb.relocate hr
    refine ⟨_, .sectionDecl (hk.relocate hk') (hl.relocate hl') hb', ?_⟩
    rw [Member.move, Member.move, SectionDecl.move, SectionDecl.move, hss]
    rfl
  | execute hk hb =>
    obtain ⟨k', _, rfl, hk', hr⟩ := ht.cons_right
    obtain ⟨ss, hb', hss⟩ := hb.relocate hr
    refine ⟨_, .execute (hk.relocate hk') hb', ?_⟩
    rw [Member.move, Member.move, hss]
    rfl

theorem IsMembers.relocate {ms : List Member} (h : IsMembers ls ms) (ht : SameTokens ls' ls) :
    ∃ ms', IsMembers ls' ms' ∧ ms'.map (Member.move nowhere) = ms.map (Member.move nowhere) := by
  induction h generalizing ls' with
  | nil =>
    cases ht.nil_right
    exact ⟨[], .nil, rfl⟩
  | cons hm _ ih =>
    obtain ⟨_, _, rfl, hl, hl'⟩ := ht.append_right
    obtain ⟨m', hm', heq⟩ := hm.relocate hl
    obtain ⟨ms', hms', hseq⟩ := ih hl'
    exact ⟨m' :: ms', .cons hm' hms', by rw [List.map_cons, List.map_cons, heq, hseq]⟩

theorem IsVisibility.relocate (h : IsVisibility ls) (ht : SameTokens ls' ls) : IsVisibility ls' := by
  cases h with
  | none =>
    cases ht.nil_right
    exact .none
  | hidden hl =>
    obtain ⟨l', _, rfl, hl', hr⟩ := ht.cons_right
    cases hr.nil_right
    exact .hidden (hl.relocate hl')
  | visible hl =>
    obtain ⟨l', _, rfl, hl', hr⟩ := ht.cons_right
    cases hr.nil_right
    exact .visible (hl.relocate hl')

theorem IsClass.relocate {d : ClassDecl} (h : IsClass ls d) (ht : SameTokens ls' ls) :
    ∃ d', IsClass ls' d' ∧ d'.move nowhere = d.move nowhere := by
  cases h with
  | mk hv hk hn hc hb hl hm hg ho hs he =>
    obtain ⟨_, e', _, rfl, hupToMembers, he', hend⟩ := ht.middle_right
    cases hend.nil_right
    obtain ⟨_, gt', _, rfl, hupToModel, hgt', hr⟩ := hupToMembers.middle_right
    obtain ⟨o', _, rfl, ho', hms⟩ := hr.cons_right
    obtain ⟨_, lt', _, rfl, hupToBase, hlt', hmos⟩ := hupToModel.middle_right
    obtain ⟨_, k', _, rfl, hvs, hk', hr⟩ := hupToBase.middle_right
    obtain ⟨l', _, rfl, hl', hr⟩ := hr.cons_right
    obtain ⟨c', _, rfl, hc', hbs⟩ := hr.cons_right
    obtain ⟨n', hn', hneq⟩ := hn.moved hl'
    obtain ⟨base, hb', hbeq⟩ := hb.relocate hbs
    obtain ⟨model, hm', hmeq⟩ := hm.relocate hmos
    obtain ⟨members, hs', hseq⟩ := hs.relocate hms
    refine ⟨_, .mk (hv.relocate hvs) (hk.relocate hk') hn' (hc.relocate hc') hb' (hl.relocate hlt') hm' (hg.relocate hgt')
      (ho.relocate ho') hs' (he.relocate he'), ?_⟩
    rw [ClassDecl.move, ClassDecl.move, hneq, hbeq, hmeq, hseq]

theorem IsSpace.relocate {space : Option String} (h : IsSpace ls space) (ht : SameTokens ls' ls) : IsSpace ls' space := by
  cases h with
  | none =>
    cases ht.nil_right
    exact .none
  | @some _ _ _ n hk hp hs =>
    obtain ⟨_, s', _, rfl, hr, hs', hend⟩ := ht.middle_right
    cases hend.nil_right
    obtain ⟨k', _, rfl, hk', hls⟩ := hr.cons_right
    obtain ⟨n', hp', heq⟩ := hp.relocate hls
    rw [← Named.name_of_move heq]
    exact .some (hk.relocate hk') hp' (hs.relocate hs')

theorem IsUsings.relocate {ns : List Named} (h : IsUsings ls ns) (ht : SameTokens ls' ls) :
    ∃ ns', IsUsings ls' ns' ∧ ns'.map (Named.move nowhere) = ns.map (Named.move nowhere) := by
  induction h generalizing ls' with
  | nil =>
    cases ht.nil_right
    exact ⟨[], .nil, rfl⟩
  | cons hk hp hs _ ih =>
    obtain ⟨_, _, rfl, hr, hr'⟩ := ht.append_right
    obtain ⟨k', _, rfl, hk', hls⟩ := hr.cons_right
    obtain ⟨s', _, rfl, hs', hrs⟩ := hr'.cons_right
    obtain ⟨n', hp', heq⟩ := hp.relocate hls
    obtain ⟨ns', hns', hseq⟩ := ih hrs
    exact ⟨n' :: ns', .cons (hk.relocate hk') hp' (hs.relocate hs') hns', by rw [List.map_cons, List.map_cons, heq, hseq]⟩

/-- Tokens at other places spell the same unit at other places. -/
theorem IsUnit.relocate {t : Tree} (h : IsUnit ls t) (ht : SameTokens ls' ls) :
    ∃ t', IsUnit ls' t' ∧ t'.move nowhere = t.move nowhere := by
  cases h with
  | mk hs hu hc =>
    obtain ⟨_, _, rfl, hfront, hcs⟩ := ht.append_right
    obtain ⟨_, _, rfl, hss, hus⟩ := hfront.append_right
    obtain ⟨usings, hu', hueq⟩ := hu.relocate hus
    obtain ⟨decl, hc', hceq⟩ := hc.relocate hcs
    exact ⟨_, .mk (hs.relocate hss) hu' hc', by rw [Tree.move, Tree.move, hueq, hceq]⟩

end

end Grammar

/-! ### Reading with pragmas and without -/

section
variable {on off : List Lexeme}

theorem plain_of_sameTokens (hsame : SameTokens (withoutPragmas on) off) : ∀ l ∈ off, l.isPragma = false := by
  intro l hl
  have hmem : l.token ∈ (withoutPragmas on).map (·.token) := hsame ▸ List.mem_map_of_mem hl
  obtain ⟨l', hl', htoken⟩ := List.mem_map.mp hmem
  have hplain : l'.isPragma = false := by simpa using (List.mem_filter.mp hl').2
  rwa [Lexeme.isPragma, ← htoken]

/-- A unit without pragmas has no places in the template. -/
theorem move_id_of_plain {t : Tree} (hoff : ∀ l ∈ off, l.isPragma = false) (hread : Tree.ofLexemes off = .ok t) :
    t.move id = t := by
  have hunit := (Marked.isUnit_of_ofLexemes hread).plain
  rw [withoutPragmas_eq_self hoff, ← ofLexemes_plain hoff, hread] at hunit
  rw [t.move_id]
  exact (Except.ok.inj hunit).symm

/-- If the tokens of a unit are the same but for places and for pragmas, and the pragmas stand where they may, then one is
read if the other one is, as the same unit but for places. -/
theorem ofLexemes_relocate (hsame : SameTokens (withoutPragmas on) off) (hplaced : Placed .free on) :
    (∀ t, Tree.ofLexemes on = .ok t →
      ∃ t', Tree.ofLexemes off = .ok t' ∧ t'.move nowhere = t.move nowhere ∧ t'.move id = t') ∧
    ((∃ t', Tree.ofLexemes off = .ok t') → ∃ t, Tree.ofLexemes on = .ok t) := by
  have hoff := plain_of_sameTokens hsame
  constructor
  · intro t hread
    obtain ⟨t', hunit, heq⟩ := (Marked.isUnit_of_ofLexemes hread).plain.relocate hsame.symm
    have hread' := (ofLexemes_plain hoff t').mpr hunit
    exact ⟨t', hread', heq.trans (t.move_eraseTemplates nowhere), move_id_of_plain hoff hread'⟩
  · rintro ⟨t', hread'⟩
    obtain ⟨u, hunit, -⟩ := ((ofLexemes_plain hoff t').mp hread').relocate hsame
    obtain ⟨t, hunit', -⟩ := Marked.exists_unit hunit hplaced
    exact ⟨t, hunit'.reads⟩

end

end Stencil.Unit
