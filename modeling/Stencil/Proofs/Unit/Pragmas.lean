import Stencil.Proofs.Unit.Accepting

/-! Units without their pragmas.

The tokens of a unit but its pragmas derive from the grammar without pragmas, and the tree is the same but for the places in
the template. The pragmas stand at the front, after a semicolon or a brace, or before the brace of a block: that is, before
namespaces in use, the class, its members, blocks, statements, an else, closing braces, and at the end. -/

namespace Stencil.Unit

open Grammar (Level IsSymbol IsWord IsName IsString IsExpr IsArgs IsPath IsNames IsParams IsVisibility IsSpace)

/-! ### Places of pragmas -/

def Lexeme.isPragma (l : Lexeme) : Bool :=
  match l.token with
  | .pragma _ => true
  | _ => false

/-- The tokens but the pragmas. -/
def withoutPragmas (ls : List Lexeme) : List Lexeme := ls.filter (!·.isPragma)

/-- What may stand between two tokens of a unit. -/
inductive Gap
  /-- Pragmas. -/
  | free
  /-- Pragmas, if the brace of a block follows. -/
  | inner
  /-- Nothing. -/
  | closed
deriving DecidableEq

/-- The gap behind a token. The brace that opens a class is the one behind the model type. -/
def Gap.after : Token → Gap
  | .symbol .semicolon | .symbol .openBrace | .symbol .closeBrace => .free
  | .symbol .greater => .closed
  | _ => .inner

/-- A pragma may stand in the gap before some tokens. -/
def Gap.admits : Gap → List Lexeme → Bool
  | .free, _ => true
  | .inner, rest => match withoutPragmas rest with
    | ⟨.symbol .openBrace, _⟩ :: _ => true
    | _ => false
  | .closed, _ => false

/-- Each pragma stands where it may, given the gap before the tokens. -/
def Placed : Gap → List Lexeme → Prop
  | _, [] => True
  | g, l :: ls => if l.isPragma then g.admits ls = true ∧ Placed g ls else Placed (.after l.token) ls

instance decidablePlaced : (g : Gap) → (ls : List Lexeme) → Decidable (Placed g ls)
  | _, [] => isTrue trivial
  | g, l :: ls =>
    have := decidablePlaced g ls
    have := decidablePlaced (.after l.token) ls
    inferInstanceAs (Decidable (if l.isPragma then g.admits ls = true ∧ Placed g ls else Placed (.after l.token) ls))

/-! ### Places in the template -/

mutual

/-- The statement without places in the template. -/
def Stmt.eraseTemplates : Stmt → Stmt
  | .write text => .write text
  | .emit e _ => .emit e none
  | .var n e _ => .var n e none
  | .ifElse branches otherwise _ => .ifElse (eraseBranches branches) (eraseBlock otherwise) none
  | .forEach n source body _ => .forEach n source (eraseStmts body) none
  | .defineSection n => .defineSection n

def Branch.eraseTemplates : Branch → Branch
  | .mk cond body => .mk cond (eraseStmts body)

def eraseBranches : List Branch → List Branch
  | [] => []
  | b :: bs => b.eraseTemplates :: eraseBranches bs

def eraseBlock : Option (List Stmt) → Option (List Stmt)
  | none => none
  | some body => some (eraseStmts body)

def eraseStmts : List Stmt → List Stmt
  | [] => []
  | s :: ss => s.eraseTemplates :: eraseStmts ss

end

def Member.eraseTemplates : Member → Member
  | .layout key inherited pos => .layout key inherited pos
  | .function decl => .function { decl with template := none }
  | .sectionDecl decl => .sectionDecl { decl with body := eraseStmts decl.body }
  | .execute body pos => .execute (eraseStmts body) pos

/-- The unit without places in the template. -/
def Tree.eraseTemplates (t : Tree) : Tree :=
  { t with decl := { t.decl with members := t.decl.members.map Member.eraseTemplates } }

/-! ### Tokens within a line -/

section
variable {g : Gap} {l : Lexeme} {ls rs : List Lexeme}

theorem withoutPragmas_append : withoutPragmas (ls ++ rs) = withoutPragmas ls ++ withoutPragmas rs := List.filter_append ..

theorem withoutPragmas_cons (h : l.isPragma = false) : withoutPragmas (l :: ls) = l :: withoutPragmas ls := by
  rw [withoutPragmas, List.filter_cons, if_pos (by rw [h]; rfl), withoutPragmas]

theorem withoutPragmas_cons_pragma (h : l.isPragma = true) : withoutPragmas (l :: ls) = withoutPragmas ls := by
  rw [withoutPragmas, List.filter_cons, if_neg (by rw [h]; decide), withoutPragmas]

theorem placed_cons (h : l.isPragma = false) : Placed g (l :: ls) ↔ Placed (.after l.token) ls := by
  rw [Placed, h]
  exact Iff.rfl

theorem placed_cons_pragma (h : l.isPragma = true) : Placed g (l :: ls) ↔ g.admits ls = true ∧ Placed g ls := by
  rw [Placed, h]
  exact Iff.rfl

/-- The token is no pragma, and only the brace of a block may follow it after pragmas. -/
structure Inner (l : Lexeme) : Prop where
  plain : l.isPragma = false
  after : Gap.after l.token = .inner

theorem Inner.of_token {l' : Lexeme} (h : Inner l) (ht : l'.token = l.token) : Inner l' := by
  obtain ⟨hp, ha⟩ := h
  exact ⟨by rwa [Lexeme.isPragma, ht], by rwa [ht]⟩

theorem Inner.not_brace (h : Inner l) : ¬IsSymbol .openBrace l := by
  intro hl
  have hafter := h.after
  rw [hl] at hafter
  cases hafter

theorem inner_word {w : String} (h : IsWord w l) : Inner l :=
  Inner.of_token (l := ⟨.name w, l.pos⟩) ⟨rfl, rfl⟩ h

theorem inner_name {n : Named} (h : IsName n l) : Inner l := inner_word (congrArg Lexeme.token h)

theorem inner_string {s : String} (h : IsString s l) : Inner l :=
  Inner.of_token (l := ⟨.string s, l.pos⟩) ⟨rfl, rfl⟩ h

theorem inner_symbol {s : Symbol} (h : IsSymbol s l) (hs : Gap.after (.symbol s) = .inner) : Inner l :=
  Inner.of_token (l := ⟨.symbol s, l.pos⟩) ⟨rfl, hs⟩ h

theorem plain_symbol {s : Symbol} (h : IsSymbol s l) : l.isPragma = false := by
  rw [Lexeme.isPragma, h]

theorem placed_cons_inner (h : Inner l) : Placed g (l :: ls) ↔ Placed .inner ls := by
  rw [placed_cons h.plain, h.after]

theorem placed_cons_symbol {s : Symbol} (h : IsSymbol s l) : Placed g (l :: ls) ↔ Placed (.after (.symbol s)) ls := by
  rw [placed_cons (plain_symbol h), h]

theorem plain_of_inner (h : ∀ l ∈ ls, Inner l) : withoutPragmas ls = ls :=
  List.filter_eq_self.mpr fun l hl => by rw [(h l hl).plain]; rfl

theorem placed_inner (h : ∀ l ∈ ls, Inner l) : Placed .inner (ls ++ rs) ↔ Placed .inner rs := by
  induction ls with
  | nil => exact Iff.rfl
  | cons l ls ih =>
    rw [List.cons_append, placed_cons_inner (h l List.mem_cons_self), ih fun l hl => h l (List.mem_cons_of_mem _ hl)]

theorem inner_atom {e : Expr} (h : Grammar.IsAtom l e) : Inner l := by
  cases h <;> exact ⟨rfl, rfl⟩

theorem inner_append (hl : ∀ l ∈ ls, Inner l) (hr : ∀ l ∈ rs, Inner l) : ∀ l ∈ ls ++ rs, Inner l :=
  List.forall_mem_append.mpr ⟨hl, hr⟩

theorem inner_cons (hl : Inner l) (hr : ∀ m ∈ rs, Inner m) : ∀ m ∈ l :: rs, Inner m := List.forall_mem_cons.mpr ⟨hl, hr⟩

theorem inner_one (hl : Inner l) : ∀ m ∈ [l], Inner m := List.forall_mem_singleton.mpr hl

end

mutual

/-- An expression has no pragma, no semicolon and no brace. -/
theorem inner_expr {k : Level} {ls : List Lexeme} {e : Expr} : IsExpr k ls e → ∀ l ∈ ls, Inner l
  | .atom ha => inner_one (inner_atom ha)
  | .parens ho he hc => inner_append (inner_cons (inner_symbol ho rfl) (inner_expr he)) (inner_one (inner_symbol hc rfl))
  | .ofPrimary he | .ofAccess he | .ofUnary he | .ofEquality he | .ofBoth he => inner_expr he
  | .member he hd hn => inner_append (inner_expr he) (inner_cons (inner_symbol hd rfl) (inner_one (inner_name hn)))
  | .call he ho ha => inner_append (inner_expr he) (inner_cons (inner_symbol ho rfl) (inner_args ha))
  | .not hb he => inner_cons (inner_symbol hb rfl) (inner_expr he)
  | .compare hl (.equal hs) hr | .compare hl (.unequal hs) hr | .both hl hs hr | .either hl hs hr =>
    inner_append (inner_expr hl) (inner_cons (inner_symbol hs rfl) (inner_expr hr))

theorem inner_args {ls : List Lexeme} {es : List Expr} : IsArgs ls es → ∀ l ∈ ls, Inner l
  | .nil hc => inner_one (inner_symbol hc rfl)
  | .last he hc => inner_append (inner_expr he) (inner_one (inner_symbol hc rfl))
  | .cons he hc ha => inner_append (inner_expr he) (inner_cons (inner_symbol hc rfl) (inner_args ha))

end

section
variable {ls : List Lexeme}

theorem inner_path {n : Named} (h : IsPath ls n) : ∀ l ∈ ls, Inner l := by
  induction h with
  | name hn => exact inner_one (inner_name hn)
  | dot _ hd hn ih => exact inner_append ih (inner_cons (inner_symbol hd rfl) (inner_one (inner_name hn)))

theorem inner_names {ns : List Named} (h : IsNames ls ns) : ∀ l ∈ ls, Inner l := by
  induction h with
  | one hn => exact inner_one (inner_name hn)
  | cons hn hc _ ih => exact inner_cons (inner_name hn) (inner_cons (inner_symbol hc rfl) ih)

theorem inner_params {ns : List Named} (h : IsParams ls ns) : ∀ l ∈ ls, Inner l := by
  cases h with
  | nil hc => exact inner_one (inner_symbol hc rfl)
  | names hs hc => exact inner_append (inner_names hs) (inner_one (inner_symbol hc rfl))

end

/-! ### Taking the pragmas out -/

namespace Marked

section
variable {q r : Pending} {ms rest : List Lexeme} {o : Lexeme}

theorem isPragma_of_token {l : Lexeme} {p : SourcePos} (h : l.token = .pragma p) : l.isPragma = true := by
  rw [Lexeme.isPragma, h]

theorem Marks.without (h : Marks q ms r) : withoutPragmas (ms ++ rest) = withoutPragmas rest := by
  induction h with
  | nil => rfl
  | cons hl _ ih => rw [List.cons_append, withoutPragmas_cons_pragma (isPragma_of_token hl), ih]

theorem Marks.placed_free (h : Marks q ms r) : Placed .free (ms ++ rest) ↔ Placed .free rest := by
  induction h with
  | nil => exact Iff.rfl
  | cons hl _ ih =>
    rw [List.cons_append, placed_cons_pragma (isPragma_of_token hl), ih]
    exact and_iff_right rfl

/-- Pragmas may stand before the brace of a block. -/
theorem Marks.placed_block (h : Marks q ms r) (ho : IsSymbol .openBrace o) :
    Placed .inner (ms ++ o :: rest) ↔ Placed .free rest := by
  induction h with
  | nil => exact placed_cons_symbol ho
  | @cons _ _ l ls _ hl hs ih =>
    have hadmits : Gap.inner.admits (ls ++ o :: rest) = true := by
      rw [Gap.admits, hs.without, withoutPragmas_cons (plain_symbol ho)]
      obtain ⟨token, pos⟩ := o
      cases ho
      rfl
    rw [List.cons_append, placed_cons_pragma (isPragma_of_token hl), ih]
    exact and_iff_right hadmits

end

mutual

theorem IsStmt.plain {q t : Pending} {ls : List Lexeme} {s : Stmt} :
    IsStmt q ls s t → Grammar.IsStmt (withoutPragmas ls) s.eraseTemplates
  | .write hm hk hl hs => by
    rw [hm.without, withoutPragmas_cons (inner_word hk).plain, withoutPragmas_cons (inner_string hl).plain,
      withoutPragmas_cons (plain_symbol hs)]
    exact .write hk hl hs
  | .emit hm hk he hs => by
    rw [hm.without, withoutPragmas_cons (inner_word hk).plain, withoutPragmas_append, plain_of_inner (inner_expr he),
      withoutPragmas_cons (plain_symbol hs)]
    exact .emit hk he hs
  | .var hm hk hn ha he hs => by
    rw [hm.without, withoutPragmas_cons (inner_word hk).plain, withoutPragmas_cons (inner_name hn).plain,
      withoutPragmas_cons (plain_symbol ha), withoutPragmas_append, plain_of_inner (inner_expr he),
      withoutPragmas_cons (plain_symbol hs)]
    exact .var hk hn ha he hs
  | .ifElse hm hk hb => by
    rw [hm.without, withoutPragmas_cons (inner_word hk).plain]
    exact .ifElse hk hb.plain
  | .forEach hm hk ho hv hn hi he hc hb => by
    rw [hm.without, withoutPragmas_cons (inner_word hk).plain, withoutPragmas_cons (plain_symbol ho),
      withoutPragmas_cons (inner_word hv).plain, withoutPragmas_cons (inner_name hn).plain,
      withoutPragmas_cons (inner_word hi).plain, withoutPragmas_append, plain_of_inner (inner_expr he),
      withoutPragmas_cons (plain_symbol hc)]
    exact .forEach hk ho hv hn hi he hc hb.plain
  | .defineSection hm hk hl hs => by
    rw [hm.without, withoutPragmas_cons (inner_word hk).plain, withoutPragmas_cons (inner_string hl).plain,
      withoutPragmas_cons (plain_symbol hs)]
    exact .defineSection hk hl hs

theorem IsAlternatives.plain {q t : Pending} {ls : List Lexeme} {bs : List Branch} {otherwise : Option (List Stmt)} :
    IsAlternatives q ls bs otherwise t →
      Grammar.IsAlternatives (withoutPragmas ls) (eraseBranches bs) (eraseBlock otherwise)
  | .last hb => by
    exact .last hb.plain
  | .otherwise hb hm hk ho => by
    rw [withoutPragmas_append, hm.without, withoutPragmas_cons (inner_word hk).plain]
    exact .otherwise hb.plain hk ho.plain
  | .cons hb hm hk hi ha => by
    rw [withoutPragmas_append, hm.without, withoutPragmas_cons (inner_word hk).plain, withoutPragmas_cons (inner_word hi).plain]
    exact .cons hb.plain hk hi ha.plain

theorem IsBranch.plain {q t : Pending} {ls : List Lexeme} {b : Branch} :
    IsBranch q ls b t → Grammar.IsBranch (withoutPragmas ls) b.eraseTemplates
  | .mk ho he hc hb => by
    rw [withoutPragmas_cons (plain_symbol ho), withoutPragmas_append, plain_of_inner (inner_expr he),
      withoutPragmas_cons (plain_symbol hc)]
    exact .mk ho he hc hb.plain

theorem IsBlock.plain {q t : Pending} {ls : List Lexeme} {ss : List Stmt} :
    IsBlock q ls ss t → Grammar.IsBlock (withoutPragmas ls) (eraseStmts ss)
  | .mk hm ho hs hm' hc => by
    rw [hm.without, withoutPragmas_cons (plain_symbol ho), withoutPragmas_append, hm'.without,
      withoutPragmas_cons (plain_symbol hc)]
    exact .mk ho hs.plain hc

theorem IsStmts.plain {q t : Pending} {ls : List Lexeme} {ss : List Stmt} :
    IsStmts q ls ss t → Grammar.IsStmts (withoutPragmas ls) (eraseStmts ss)
  | .nil => .nil
  | .cons hs hr => by
    rw [withoutPragmas_append]
    exact .cons hs.plain hr.plain

end

mutual

theorem IsStmt.placed {q t : Pending} {ls : List Lexeme} {s : Stmt} :
    IsStmt q ls s t → ∀ {rest}, Placed .free rest → Placed .free (ls ++ rest)
  | .write hm hk hl hs, rest, hrest | .defineSection hm hk hl hs, rest, hrest => by
    rw [List.append_assoc, hm.placed_free, List.cons_append, placed_cons_inner (inner_word hk), List.cons_append,
      placed_cons_inner (inner_string hl), List.cons_append, placed_cons_symbol hs]
    exact hrest
  | .emit hm hk he hs, rest, hrest => by
    rw [List.append_assoc, hm.placed_free, List.cons_append, placed_cons_inner (inner_word hk), List.append_assoc,
      placed_inner (inner_expr he), List.cons_append, placed_cons_symbol hs]
    exact hrest
  | .var hm hk hn ha he hs, rest, hrest => by
    rw [List.append_assoc, hm.placed_free, List.cons_append, placed_cons_inner (inner_word hk), List.cons_append,
      placed_cons_inner (inner_name hn), List.cons_append, placed_cons_inner (inner_symbol ha rfl), List.append_assoc,
      placed_inner (inner_expr he), List.cons_append, placed_cons_symbol hs]
    exact hrest
  | .ifElse hm hk hb, rest, hrest => by
    rw [List.append_assoc, hm.placed_free, List.cons_append, placed_cons_inner (inner_word hk)]
    exact hb.placed hrest
  | .forEach hm hk ho hv hn hi he hc hb, rest, hrest => by
    rw [List.append_assoc, hm.placed_free, List.cons_append, placed_cons_inner (inner_word hk), List.cons_append,
      placed_cons_inner (inner_symbol ho rfl), List.cons_append, placed_cons_inner (inner_word hv), List.cons_append,
      placed_cons_inner (inner_name hn), List.cons_append, placed_cons_inner (inner_word hi), List.append_assoc,
      placed_inner (inner_expr he), List.cons_append, placed_cons_inner (inner_symbol hc rfl)]
    exact hb.placed hrest

theorem IsAlternatives.placed {q t : Pending} {ls : List Lexeme} {bs : List Branch} {otherwise : Option (List Stmt)} :
    IsAlternatives q ls bs otherwise t → ∀ {rest}, Placed .free rest → Placed .inner (ls ++ rest)
  | .last hb, rest, hrest => hb.placed hrest
  | .otherwise hb hm hk ho, rest, hrest => by
    rw [List.append_assoc]
    refine hb.placed ?_
    rw [List.append_assoc, hm.placed_free, List.cons_append, placed_cons_inner (inner_word hk)]
    exact ho.placed hrest
  | .cons hb hm hk hi ha, rest, hrest => by
    rw [List.append_assoc]
    refine hb.placed ?_
    rw [List.append_assoc, hm.placed_free, List.cons_append, placed_cons_inner (inner_word hk), List.cons_append,
      placed_cons_inner (inner_word hi)]
    exact ha.placed hrest

theorem IsBranch.placed {q t : Pending} {ls : List Lexeme} {b : Branch} :
    IsBranch q ls b t → ∀ {rest}, Placed .free rest → Placed .inner (ls ++ rest)
  | .mk ho he hc hb, rest, hrest => by
    rw [List.cons_append, placed_cons_inner (inner_symbol ho rfl), List.append_assoc, placed_inner (inner_expr he),
      List.cons_append, placed_cons_inner (inner_symbol hc rfl)]
    exact hb.placed hrest

theorem IsBlock.placed {q t : Pending} {ls : List Lexeme} {ss : List Stmt} :
    IsBlock q ls ss t → ∀ {rest}, Placed .free rest → Placed .inner (ls ++ rest)
  | .mk hm ho hs hm' hc, rest, hrest => by
    rw [List.append_assoc, List.cons_append, hm.placed_block ho, List.append_assoc]
    refine hs.placed ?_
    rw [List.append_assoc, hm'.placed_free, List.cons_append, placed_cons_symbol hc]
    exact hrest

theorem IsStmts.placed {q t : Pending} {ls : List Lexeme} {ss : List Stmt} :
    IsStmts q ls ss t → ∀ {rest}, Placed .free rest → Placed .free (ls ++ rest)
  | .nil, rest, hrest => hrest
  | .cons hs hr, rest, hrest => by
    rw [List.append_assoc]
    exact hs.placed (hr.placed hrest)

end

theorem IsMember.plain {q t : Pending} {ls : List Lexeme} {m : Member} (h : IsMember q ls m t) :
    Grammar.IsMember (withoutPragmas ls) m.eraseTemplates := by
  cases h with
  | layout hm hk hl hs =>
    rw [hm.without, withoutPragmas_cons (inner_word hk).plain, withoutPragmas_cons (inner_string hl).plain,
      withoutPragmas_cons (plain_symbol hs)]
    exact .layout hk hl hs
  | defaultLayout hm hd hk hl hs =>
    rw [hm.without, withoutPragmas_cons (inner_word hd).plain, withoutPragmas_cons (inner_word hk).plain,
      withoutPragmas_cons (inner_string hl).plain, withoutPragmas_cons (plain_symbol hs)]
    exact .defaultLayout hd hk hl hs
  | function hm hk hn ho hp ha he hs =>
    rw [hm.without, withoutPragmas_cons (inner_word hk).plain, withoutPragmas_cons (inner_name hn).plain,
      withoutPragmas_cons (plain_symbol ho), withoutPragmas_append, plain_of_inner (inner_params hp),
      withoutPragmas_cons (plain_symbol ha), withoutPragmas_append, plain_of_inner (inner_expr he),
      withoutPragmas_cons (plain_symbol hs)]
    simpa [withoutPragmas, Member.eraseTemplates] using Grammar.IsMember.function hk hn ho hp ha he hs
  | sectionDecl hm hk hl hb =>
    rw [hm.without, withoutPragmas_cons (inner_word hk).plain, withoutPragmas_cons (inner_string hl).plain]
    exact .sectionDecl hk hl hb.plain
  | execute hm hk hb =>
    rw [hm.without, withoutPragmas_cons (inner_word hk).plain]
    exact .execute hk hb.plain

theorem IsMember.placed {q t : Pending} {ls rest : List Lexeme} {m : Member} (h : IsMember q ls m t)
    (hrest : Placed .free rest) : Placed .free (ls ++ rest) := by
  cases h with
  | layout hm hk hl hs =>
    rw [List.append_assoc, hm.placed_free, List.cons_append, placed_cons_inner (inner_word hk), List.cons_append,
      placed_cons_inner (inner_string hl), List.cons_append, placed_cons_symbol hs]
    exact hrest
  | defaultLayout hm hd hk hl hs =>
    rw [List.append_assoc, hm.placed_free, List.cons_append, placed_cons_inner (inner_word hd), List.cons_append,
      placed_cons_inner (inner_word hk), List.cons_append, placed_cons_inner (inner_string hl), List.cons_append,
      placed_cons_symbol hs]
    exact hrest
  | function hm hk hn ho hp ha he hs =>
    rw [List.append_assoc, hm.placed_free, List.cons_append, placed_cons_inner (inner_word hk), List.cons_append,
      placed_cons_inner (inner_name hn), List.cons_append, placed_cons_inner (inner_symbol ho rfl), List.append_assoc,
      placed_inner (inner_params hp), List.cons_append, placed_cons_inner (inner_symbol ha rfl), List.append_assoc,
      placed_inner (inner_expr he), List.cons_append, placed_cons_symbol hs]
    exact hrest
  | sectionDecl hm hk hl hb =>
    rw [List.append_assoc, hm.placed_free, List.cons_append, placed_cons_inner (inner_word hk), List.cons_append,
      placed_cons_inner (inner_string hl)]
    exact hb.placed hrest
  | execute hm hk hb =>
    rw [List.append_assoc, hm.placed_free, List.cons_append, placed_cons_inner (inner_word hk)]
    exact hb.placed hrest

theorem IsMembers.plain {q t : Pending} {ls : List Lexeme} {ms : List Member} (h : IsMembers q ls ms t) :
    Grammar.IsMembers (withoutPragmas ls) (ms.map Member.eraseTemplates) := by
  induction h with
  | nil => exact .nil
  | cons hm _ ih =>
    rw [withoutPragmas_append]
    exact .cons hm.plain ih

theorem IsMembers.placed {q t : Pending} {ls rest : List Lexeme} {ms : List Member} (h : IsMembers q ls ms t)
    (hrest : Placed .free rest) : Placed .free (ls ++ rest) := by
  induction h with
  | nil => exact hrest
  | cons hm _ ih =>
    rw [List.append_assoc]
    exact hm.placed ih

theorem inner_visibility {vs : List Lexeme} (h : IsVisibility vs) : ∀ l ∈ vs, Inner l := by
  cases h with
  | none => exact List.forall_mem_nil _
  | hidden hl | visible hl => exact inner_one (inner_word hl)

/-- Up to its brace, a class has no pragma but those at the front. -/
theorem placed_header {vs bs ls rest : List Lexeme} {k l c lt gt o : Lexeme} {n base model : Named} (hv : IsVisibility vs)
    (hk : IsWord "class" k) (hn : IsName n l) (hc : IsSymbol .colon c) (hb : IsPath bs base) (hl : IsSymbol .less lt)
    (hm : IsPath ls model) (hg : IsSymbol .greater gt) (ho : IsSymbol .openBrace o) (hrest : Placed .free rest) :
    Placed .free (vs ++ k :: l :: c :: (bs ++ lt :: (ls ++ gt :: o :: rest))) := by
  have hinner : ∀ g, Placed g (k :: l :: c :: (bs ++ lt :: (ls ++ gt :: o :: rest))) := by
    intro g
    rw [placed_cons_inner (inner_word hk), placed_cons_inner (inner_name hn), placed_cons_inner (inner_symbol hc rfl),
      placed_inner (inner_path hb), placed_cons_inner (inner_symbol hl rfl), placed_inner (inner_path hm),
      placed_cons_symbol hg, placed_cons_symbol ho]
    exact hrest
  cases hv with
  | none => exact hinner _
  | hidden hw | visible hw =>
    rw [List.singleton_append, placed_cons_inner (inner_word hw)]
    exact hinner _

theorem IsClass.plain {q t : Pending} {ls : List Lexeme} {d : ClassDecl} (h : IsClass q ls d t) :
    Grammar.IsClass (withoutPragmas ls) { d with members := d.members.map Member.eraseTemplates } := by
  cases h with
  | @mk _ _ _ ps vs bs ls ms ps' k l c lt gt o e n base model members hp hv hk hn hc hb hl hm hg ho hs hp' he =>
    have hclass := Grammar.IsClass.mk hv hk hn hc hb hl hm hg ho hs.plain he
    rw [hp.without, withoutPragmas_append, plain_of_inner (inner_visibility hv), withoutPragmas_cons (inner_word hk).plain,
      withoutPragmas_cons (inner_name hn).plain, withoutPragmas_cons (plain_symbol hc), withoutPragmas_append,
      plain_of_inner (inner_path hb), withoutPragmas_cons (plain_symbol hl), withoutPragmas_append,
      plain_of_inner (inner_path hm), withoutPragmas_cons (plain_symbol hg), withoutPragmas_cons (plain_symbol ho),
      withoutPragmas_append, hp'.without, withoutPragmas_cons (plain_symbol he)]
    simpa [withoutPragmas] using hclass

theorem IsClass.placed {q t : Pending} {ls rest : List Lexeme} {d : ClassDecl} (h : IsClass q ls d t)
    (hrest : Placed .free rest) : Placed .free (ls ++ rest) := by
  cases h with
  | @mk _ _ _ ps vs bs ls ms ps' k l c lt gt o e n base model members hp hv hk hn hc hb hl hm hg ho hs hp' he =>
    have hclose : Placed .free (ps' ++ e :: rest) := by
      rw [hp'.placed_free, placed_cons_symbol he]
      exact hrest
    rw [List.append_assoc, hp.placed_free]
    simpa using placed_header hv hk hn hc hb hl hm hg ho (hs.placed hclose)

theorem IsUsings.plain {q t : Pending} {ls : List Lexeme} {ns : List Named} (h : IsUsings q ls ns t) :
    Grammar.IsUsings (withoutPragmas ls) ns := by
  induction h with
  | nil => exact .nil
  | cons hm hk hp hs _ ih =>
    rw [hm.without, withoutPragmas_cons (inner_word hk).plain, withoutPragmas_append, plain_of_inner (inner_path hp),
      withoutPragmas_cons (plain_symbol hs)]
    exact .cons hk hp hs ih

theorem IsUsings.placed {q t : Pending} {ls rest : List Lexeme} {ns : List Named} (h : IsUsings q ls ns t)
    (hrest : Placed .free rest) : Placed .free (ls ++ rest) := by
  induction h with
  | nil => exact hrest
  | cons hm hk hp hs _ ih =>
    rw [List.append_assoc, hm.placed_free, List.cons_append, placed_cons_inner (inner_word hk), List.append_assoc,
      placed_inner (inner_path hp), List.cons_append, placed_cons_symbol hs]
    exact ih

/-- Without its pragmas, a unit derives from the grammar that has none. -/
theorem IsUnit.plain {ls : List Lexeme} {t : Tree} (h : IsUnit ls t) :
    Grammar.IsUnit (withoutPragmas ls) t.eraseTemplates := by
  cases h with
  | @mk ms ls us cs ms' _ _ _ _ space usings decl hm hs hu hc hm' =>
    have hspace : withoutPragmas ls = ls := by
      cases hs with
      | none => rfl
      | some hk hp hz =>
        rw [withoutPragmas_append, withoutPragmas_cons (inner_word hk).plain, plain_of_inner (inner_path hp),
          withoutPragmas_cons (plain_symbol hz)]
        rfl
    have hend : withoutPragmas ms' = [] := by
      rw [← List.append_nil ms', hm'.without]
      rfl
    have hunit := Grammar.IsUnit.mk hs hu.plain hc.plain
    rw [hm.without, withoutPragmas_append, hspace, withoutPragmas_append, withoutPragmas_append, hend]
    simpa [Tree.eraseTemplates] using hunit

/-- The pragmas of a unit stand where they may. -/
theorem IsUnit.placed {ls : List Lexeme} {t : Tree} (h : IsUnit ls t) : Placed .free ls := by
  cases h with
  | @mk ms ls us cs ms' _ _ _ _ space usings decl hm hs hu hc hm' =>
    have hend : Placed .free ms' := by
      rw [← List.append_nil ms', hm'.placed_free]
      trivial
    have hrest : Placed .free (us ++ (cs ++ ms')) := hu.placed (hc.placed hend)
    rw [hm.placed_free]
    cases hs with
    | none => exact hrest
    | some hk hp hz =>
      rw [List.append_assoc, List.cons_append, placed_cons_inner (inner_word hk), placed_inner (inner_path hp),
        List.cons_append, placed_cons_symbol hz]
      exact hrest

end Marked

end Stencil.Unit
