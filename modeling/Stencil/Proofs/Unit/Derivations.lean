import Stencil.Proofs.Unit.Pragmas

/-! What the reader of units accepts.

Tokens without pragmas are read exactly if they derive from the grammar, and as the one tree that they spell. Pragmas can be
put back wherever they may stand: the same unit is read, but for the places in the template. -/

namespace Stencil.Unit

open Grammar (IsSymbol IsWord IsName IsString IsExpr IsPath IsNames IsParams IsVisibility IsSpace)

namespace Marked

/-! ### Units without pragmas -/

mutual

/-- A derivation without pragmas is one with pragmas. -/
theorem isStmt_of_plain {ls : List Lexeme} {s : Stmt} : Grammar.IsStmt ls s → IsStmt none ls s none
  | .write hk hl hs => .write .nil hk hl hs
  | .emit hk he hs => .emit .nil hk he hs
  | .var hk hn ha he hs => .var .nil hk hn ha he hs
  | .ifElse hk hb => .ifElse .nil hk (isAlternatives_of_plain hb)
  | .forEach hk ho hv hn hi he hc hb => .forEach .nil hk ho hv hn hi he hc (isBlock_of_plain hb)
  | .defineSection hk hl hs => .defineSection .nil hk hl hs

theorem isAlternatives_of_plain {ls : List Lexeme} {bs : List Branch} {otherwise : Option (List Stmt)} :
    Grammar.IsAlternatives ls bs otherwise → IsAlternatives none ls bs otherwise none
  | .last hb => .last (isBranch_of_plain hb)
  | .otherwise hb hk ho => .otherwise (isBranch_of_plain hb) .nil hk (isBlock_of_plain ho)
  | .cons hb hk hi ha => .cons (isBranch_of_plain hb) .nil hk hi (isAlternatives_of_plain ha)

theorem isBranch_of_plain {ls : List Lexeme} {b : Branch} : Grammar.IsBranch ls b → IsBranch none ls b none
  | .mk ho he hc hb => .mk ho he hc (isBlock_of_plain hb)

theorem isBlock_of_plain {ls : List Lexeme} {ss : List Stmt} : Grammar.IsBlock ls ss → IsBlock none ls ss none
  | .mk ho hs hc => .mk .nil ho (isStmts_of_plain hs) .nil hc

theorem isStmts_of_plain {ls : List Lexeme} {ss : List Stmt} : Grammar.IsStmts ls ss → IsStmts none ls ss none
  | .nil => .nil
  | .cons hs hr => .cons (isStmt_of_plain hs) (isStmts_of_plain hr)

end

theorem isMembers_of_plain {ls : List Lexeme} {ms : List Member} (h : Grammar.IsMembers ls ms) : IsMembers none ls ms none := by
  induction h with
  | nil => exact .nil
  | @cons ls _ m _ hm _ ih =>
    have hmember : IsMember none ls m none := by
      cases hm with
      | layout hk hl hs => exact .layout .nil hk hl hs
      | defaultLayout hd hk hl hs => exact .defaultLayout .nil hd hk hl hs
      | function hk hn ho hp ha he hs => simpa using IsMember.function .nil hk hn ho hp ha he hs
      | sectionDecl hk hl hb => exact .sectionDecl .nil hk hl (isBlock_of_plain hb)
      | execute hk hb => exact .execute .nil hk (isBlock_of_plain hb)
    exact .cons hmember ih

theorem isUsings_of_plain {ls : List Lexeme} {ns : List Named} (h : Grammar.IsUsings ls ns) : IsUsings none ls ns none := by
  induction h with
  | nil => exact .nil
  | cons hk hp hs _ ih => exact .cons .nil hk hp hs ih

theorem isUnit_of_plain {ls : List Lexeme} {t : Tree} (h : Grammar.IsUnit ls t) : IsUnit ls t := by
  cases h with
  | mk hs hu hc =>
    cases hc with
    | mk hv hk hn hc hb hl hm hg ho hms he =>
      have hclass := IsClass.mk (.nil (q := none)) hv hk hn hc hb hl hm hg ho (isMembers_of_plain hms) .nil he
      simpa using IsUnit.mk .nil hs (isUsings_of_plain hu) hclass .nil

/-! ### Pragmas put back -/

section
variable {g : Gap} {k z : Lexeme} {ls xs rs : List Lexeme}

/-- The next token but pragmas, and the pragmas before it: there are some only if the gap admits them. -/
theorem exists_next (h : Placed g ls) (hls : withoutPragmas ls = k :: rs) : ∃ ms ls', ls = ms ++ k :: ls' ∧
    (∀ q, ∃ r, Marks q ms r) ∧ withoutPragmas ls' = rs ∧ Placed (.after k.token) ls' ∧
      (ms = [] ∨ g = .free ∨ g = .inner ∧ IsSymbol .openBrace k) := by
  induction ls with
  | nil => cases hls
  | cons l ls ih =>
    cases hl : l.isPragma with
    | false =>
      rw [withoutPragmas_cons hl, List.cons.injEq] at hls
      obtain ⟨rfl, rfl⟩ := hls
      exact ⟨[], ls, rfl, fun q => ⟨q, .nil⟩, rfl, (placed_cons hl).mp h, .inl rfl⟩
    | true =>
      rw [withoutPragmas_cons_pragma hl] at hls
      obtain ⟨hadmits, hplaced⟩ := (placed_cons_pragma hl).mp h
      obtain ⟨ms, ls', rfl, hms, hrs, hafter, -⟩ := ih hplaced hls
      obtain ⟨p, hp⟩ : ∃ p, l.token = .pragma p := by
        unfold Lexeme.isPragma at hl
        split at hl
        · exact ⟨_, ‹_›⟩
        · cases hl
      -- A pragma stands only where the gap admits one: at a free place, or before an opening brace.
      refine ⟨l :: ms, ls', rfl, fun q => (hms (some p)).imp fun _ hr => .cons hp hr, hrs, hafter, .inr ?_⟩
      cases g with
      | free => exact .inl rfl
      | closed => cases hadmits
      | inner =>
        rw [Gap.admits, hls] at hadmits
        split at hadmits
        · rename_i hbrace
          cases hbrace
          exact .inr ⟨rfl, rfl⟩
        · cases hadmits

theorem exists_keyword (h : Placed g ls) (hls : withoutPragmas ls = k :: rs) (hk : Inner k) :
    ∃ ms ls', ls = ms ++ k :: ls' ∧ (∀ q, ∃ r, Marks q ms r) ∧ withoutPragmas ls' = rs ∧ Placed .inner ls' := by
  obtain ⟨ms, ls', hsplit, hms, hrs, hafter, -⟩ := exists_next h hls
  exact ⟨ms, ls', hsplit, hms, hrs, hk.after ▸ hafter⟩

/-- Within a line, no pragma comes before a token other than the brace of a block. -/
theorem exists_inner (h : Placed .inner ls) (hls : withoutPragmas ls = k :: rs) (hk : ¬IsSymbol .openBrace k) :
    ∃ ls', ls = k :: ls' ∧ withoutPragmas ls' = rs ∧ Placed (.after k.token) ls' := by
  obtain ⟨ms, ls', rfl, -, hrs, hafter, rfl | hfree | hbrace⟩ := exists_next h hls
  · exact ⟨ls', rfl, hrs, hafter⟩
  · cases hfree
  · exact absurd hbrace.2 hk

theorem exists_line (hxs : ∀ l ∈ xs, Inner l) (h : Placed .inner ls) (hls : withoutPragmas ls = xs ++ rs) :
    ∃ ls', ls = xs ++ ls' ∧ withoutPragmas ls' = rs ∧ Placed .inner ls' := by
  induction xs generalizing ls with
  | nil => exact ⟨ls, rfl, hls, h⟩
  | cons x xs ih =>
    have hx := hxs x List.mem_cons_self
    obtain ⟨ls₁, rfl, hls₁, hafter⟩ := exists_inner h hls hx.not_brace
    obtain ⟨ls', rfl, hrs, hplaced⟩ := ih (fun l hl => hxs l (List.mem_cons_of_mem _ hl)) (hx.after ▸ hafter) hls₁
    exact ⟨ls', rfl, hrs, hplaced⟩

/-- A line up to its semicolon has no pragma. -/
theorem exists_terminated (hxs : ∀ l ∈ xs, Inner l) (hz : IsSymbol .semicolon z) (h : Placed .inner ls)
    (hls : withoutPragmas ls = xs ++ z :: rs) :
    ∃ ls', ls = xs ++ z :: ls' ∧ withoutPragmas ls' = rs ∧ Placed .free ls' := by
  obtain ⟨ls₁, rfl, hls₁, hplaced⟩ := exists_line hxs h hls
  obtain ⟨ls', rfl, hrs, hafter⟩ := exists_inner hplaced hls₁ fun hbrace => nomatch hz.symm.trans hbrace
  rw [hz] at hafter
  exact ⟨ls', rfl, hrs, hafter⟩

/-- The form that the tokens spell is found again where they come first but for pragmas, given the gap before them. -/
def Restores (g : Gap) (xs : List Lexeme) (P : Pending → List Lexeme → Pending → Prop) : Prop :=
  ∀ ls rest, Placed g ls → withoutPragmas ls = xs ++ rest → ∀ q, ∃ ys ls' t, ls = ys ++ ls' ∧ withoutPragmas ls' = rest ∧
    Placed .free ls' ∧ P q ys t

end

mutual

theorem restores_stmt {xs : List Lexeme} {s : Stmt} :
    Grammar.IsStmt xs s → Restores .free xs fun q ys t => ∃ s', IsStmt q ys s' t ∧ s'.eraseTemplates = s
  | .write hk hl hs => by
    intro ls rest h hls q
    obtain ⟨ms, ls₁, rfl, hms, hls₁, hinner⟩ := exists_keyword h hls (inner_word hk)
    obtain ⟨ls₂, rfl, hrest, hfree⟩ := exists_terminated (inner_one (inner_string hl)) hs hinner hls₁
    obtain ⟨r, hr⟩ := hms q
    exact ⟨_, ls₂, none, by simp, hrest, hfree, _, .write hr hk hl hs, rfl⟩
  | .emit hk he hs => by
    intro ls rest h hls q
    simp only [List.append_assoc, List.cons_append] at hls
    obtain ⟨ms, ls₁, rfl, hms, hls₁, hinner⟩ := exists_keyword h hls (inner_word hk)
    obtain ⟨ls₂, rfl, hrest, hfree⟩ := exists_terminated (inner_expr he) hs hinner hls₁
    obtain ⟨r, hr⟩ := hms q
    exact ⟨_, ls₂, none, by simp, hrest, hfree, _, .emit hr hk he hs, rfl⟩
  | .var hk hn ha he hs => by
    intro ls rest h hls q
    simp only [List.append_assoc, List.cons_append] at hls
    obtain ⟨ms, ls₁, rfl, hms, hls₁, hinner⟩ := exists_keyword h hls (inner_word hk)
    -- No pragma stands inside of a statement's own line.
    have hline := inner_cons (inner_name hn) (inner_cons (inner_symbol ha rfl) (inner_expr he))
    obtain ⟨ls₂, rfl, hrest, hfree⟩ := exists_terminated hline hs hinner hls₁
    obtain ⟨r, hr⟩ := hms q
    exact ⟨_, ls₂, none, by simp, hrest, hfree, _, .var hr hk hn ha he hs, rfl⟩
  | .ifElse hk hb => by
    intro ls rest h hls q
    obtain ⟨ms, ls₁, rfl, hms, hls₁, hinner⟩ := exists_keyword h hls (inner_word hk)
    obtain ⟨ys, ls₂, t, rfl, hrest, hfree, bs, otherwise, hall, rfl, rfl⟩ :=
      restores_alternatives hb ls₁ rest hinner hls₁ none
    obtain ⟨r, hr⟩ := hms q
    exact ⟨_, ls₂, t, by simp, hrest, hfree, _, .ifElse hr hk hall, rfl⟩
  | .forEach hk ho hv hn hi he hc hb => by
    intro ls rest h hls q
    simp only [List.append_assoc, List.cons_append] at hls
    obtain ⟨ms, ls₁, rfl, hms, hls₁, hinner⟩ := exists_keyword h hls (inner_word hk)
    have hline := inner_cons (inner_symbol ho rfl) (inner_cons (inner_word hv) (inner_cons (inner_name hn)
      (inner_cons (inner_word hi) (inner_append (inner_expr he) (inner_one (inner_symbol hc rfl))))))
    obtain ⟨ls₂, rfl, hls₂, hinner⟩ := exists_line hline hinner (by simpa using hls₁)
    obtain ⟨ys, ls₃, t, rfl, hrest, hfree, body, hbody, rfl⟩ := restores_block hb ls₂ rest hinner hls₂ none
    obtain ⟨r, hr⟩ := hms q
    exact ⟨_, ls₃, t, by simp, hrest, hfree, _, .forEach hr hk ho hv hn hi he hc hbody, rfl⟩
  | .defineSection hk hl hs => by
    intro ls rest h hls q
    obtain ⟨ms, ls₁, rfl, hms, hls₁, hinner⟩ := exists_keyword h hls (inner_word hk)
    obtain ⟨ls₂, rfl, hrest, hfree⟩ := exists_terminated (inner_one (inner_string hl)) hs hinner hls₁
    obtain ⟨r, hr⟩ := hms q
    exact ⟨_, ls₂, none, by simp, hrest, hfree, _, .defineSection hr hk hl hs, rfl⟩

theorem restores_alternatives {xs : List Lexeme} {bs : List Branch} {otherwise : Option (List Stmt)} :
    Grammar.IsAlternatives xs bs otherwise → Restores .inner xs fun q ys t => ∃ bs' otherwise',
      IsAlternatives q ys bs' otherwise' t ∧ eraseBranches bs' = bs ∧ eraseBlock otherwise' = otherwise
  | .last hb => by
    intro ls rest h hls q
    obtain ⟨ys, ls₁, t, rfl, hrest, hfree, b, hbranch, rfl⟩ := restores_branch hb ls rest h hls q
    exact ⟨ys, ls₁, t, rfl, hrest, hfree, [b], none, .last hbranch, rfl, rfl⟩
  | .otherwise hb hk ho => by
    intro ls rest h hls q
    rw [List.append_assoc] at hls
    obtain ⟨ys, ls₁, p, rfl, hls₁, hfree, b, hbranch, rfl⟩ := restores_branch hb ls _ h hls q
    obtain ⟨ms, ls₂, rfl, hms, hls₂, hinner⟩ := exists_keyword hfree hls₁ (inner_word hk)
    obtain ⟨zs, ls₃, t, rfl, hrest, hfree, body, hbody, rfl⟩ := restores_block ho ls₂ rest hinner hls₂ none
    obtain ⟨r, hr⟩ := hms p
    exact ⟨_, ls₃, t, by simp, hrest, hfree, [b], some body, .otherwise hbranch hr hk hbody, rfl, rfl⟩
  | .cons hb hk hi ha => by
    intro ls rest h hls q
    rw [List.append_assoc] at hls
    obtain ⟨ys, ls₁, p, rfl, hls₁, hfree, b, hbranch, rfl⟩ := restores_branch hb ls _ h hls q
    obtain ⟨ms, ls₂, rfl, hms, hls₂, hinner⟩ := exists_keyword hfree hls₁ (inner_word hk)
    obtain ⟨ls₃, rfl, hls₃, hinner⟩ := exists_line (inner_one (inner_word hi)) hinner hls₂
    obtain ⟨zs, ls₄, t, rfl, hrest, hfree, bs, otherwise, hall, rfl, rfl⟩ :=
      restores_alternatives ha ls₃ rest hinner hls₃ none
    obtain ⟨r, hr⟩ := hms p
    exact ⟨_, ls₄, t, by simp, hrest, hfree, b :: bs, otherwise, .cons hbranch hr hk hi hall, rfl, rfl⟩

theorem restores_branch {xs : List Lexeme} {b : Branch} :
    Grammar.IsBranch xs b → Restores .inner xs fun q ys t => ∃ b', IsBranch q ys b' t ∧ b'.eraseTemplates = b
  | .mk ho he hc hb => by
    intro ls rest h hls q
    have hline := inner_cons (inner_symbol ho rfl) (inner_append (inner_expr he) (inner_one (inner_symbol hc rfl)))
    obtain ⟨ls₁, rfl, hls₁, hinner⟩ := exists_line hline h (by simpa using hls)
    obtain ⟨ys, ls₂, t, rfl, hrest, hfree, body, hbody, rfl⟩ := restores_block hb ls₁ rest hinner hls₁ q
    exact ⟨_, ls₂, t, by simp, hrest, hfree, _, .mk ho he hc hbody, rfl⟩

theorem restores_block {xs : List Lexeme} {ss : List Stmt} :
    Grammar.IsBlock xs ss → Restores .inner xs fun q ys t => ∃ ss', IsBlock q ys ss' t ∧ eraseStmts ss' = ss
  | .mk ho hs hc => by
    intro ls rest h hls q
    simp only [List.append_assoc, List.cons_append, List.nil_append] at hls
    obtain ⟨ms, ls₁, rfl, hms, hls₁, hfree, -⟩ := exists_next h hls
    rw [ho] at hfree
    obtain ⟨r, hr⟩ := hms q
    obtain ⟨ys, ls₂, p, rfl, hls₂, hfree, ss, hss, rfl⟩ := restores_stmts hs ls₁ _ hfree hls₁ r
    obtain ⟨ms', ls₃, rfl, hms', hrest, hfree, -⟩ := exists_next hfree hls₂
    rw [hc] at hfree
    obtain ⟨t, ht⟩ := hms' p
    exact ⟨_, ls₃, t, by simp, hrest, hfree, ss, .mk hr ho hss ht hc, rfl⟩

theorem restores_stmts {xs : List Lexeme} {ss : List Stmt} :
    Grammar.IsStmts xs ss → Restores .free xs fun q ys t => ∃ ss', IsStmts q ys ss' t ∧ eraseStmts ss' = ss
  | .nil => fun ls rest h hls q => ⟨[], ls, q, rfl, hls, h, [], .nil, rfl⟩
  | .cons hs hr => by
    intro ls rest h hls q
    rw [List.append_assoc] at hls
    obtain ⟨ys, ls₁, p, rfl, hls₁, hfree, s, hstmt, rfl⟩ := restores_stmt hs ls _ h hls q
    obtain ⟨zs, ls₂, t, rfl, hrest, hfree, ss, hstmts, rfl⟩ := restores_stmts hr ls₁ rest hfree hls₁ p
    exact ⟨_, ls₂, t, by simp, hrest, hfree, s :: ss, .cons hstmt hstmts, rfl⟩

end

theorem restores_member {xs : List Lexeme} {m : Member} (hm : Grammar.IsMember xs m) :
    Restores .free xs fun q ys t => ∃ m', IsMember q ys m' t ∧ m'.eraseTemplates = m := by
  intro ls rest h hls q
  cases hm with
  | layout hk hl hs =>
    obtain ⟨ms, ls₁, rfl, hms, hls₁, hinner⟩ := exists_keyword h hls (inner_word hk)
    obtain ⟨ls₂, rfl, hrest, hfree⟩ := exists_terminated (inner_one (inner_string hl)) hs hinner hls₁
    obtain ⟨r, hr⟩ := hms q
    exact ⟨_, ls₂, none, by simp, hrest, hfree, _, .layout hr hk hl hs, rfl⟩
  | defaultLayout hd hk hl hs =>
    obtain ⟨ms, ls₁, rfl, hms, hls₁, hinner⟩ := exists_keyword h hls (inner_word hd)
    have hline := inner_cons (inner_word hk) (inner_one (inner_string hl))
    obtain ⟨ls₂, rfl, hrest, hfree⟩ := exists_terminated hline hs hinner hls₁
    obtain ⟨r, hr⟩ := hms q
    exact ⟨_, ls₂, none, by simp, hrest, hfree, _, .defaultLayout hr hd hk hl hs, rfl⟩
  | function hk hn ho hp ha he hs =>
    simp only [List.append_assoc, List.cons_append] at hls
    obtain ⟨ms, ls₁, rfl, hms, hls₁, hinner⟩ := exists_keyword h hls (inner_word hk)
    have hline := inner_cons (inner_name hn) (inner_cons (inner_symbol ho rfl) (inner_append (inner_params hp)
      (inner_cons (inner_symbol ha rfl) (inner_expr he))))
    obtain ⟨ls₂, rfl, hrest, hfree⟩ := exists_terminated hline hs hinner (by simpa using hls₁)
    obtain ⟨r, hr⟩ := hms q
    exact ⟨_, ls₂, none, by simp, hrest, hfree, _, .function hr hk hn ho hp ha he hs, rfl⟩
  | sectionDecl hk hl hb =>
    obtain ⟨ms, ls₁, rfl, hms, hls₁, hinner⟩ := exists_keyword h hls (inner_word hk)
    obtain ⟨ls₂, rfl, hls₂, hinner⟩ := exists_line (inner_one (inner_string hl)) hinner hls₁
    obtain ⟨ys, ls₃, t, rfl, hrest, hfree, body, hbody, rfl⟩ := restores_block hb ls₂ rest hinner hls₂ none
    obtain ⟨r, hr⟩ := hms q
    exact ⟨_, ls₃, t, by simp, hrest, hfree, _, .sectionDecl hr hk hl hbody, rfl⟩
  | execute hk hb =>
    obtain ⟨ms, ls₁, rfl, hms, hls₁, hinner⟩ := exists_keyword h hls (inner_word hk)
    obtain ⟨ys, ls₂, t, rfl, hrest, hfree, body, hbody, rfl⟩ := restores_block hb ls₁ rest hinner hls₁ none
    obtain ⟨r, hr⟩ := hms q
    exact ⟨_, ls₂, t, by simp, hrest, hfree, _, .execute hr hk hbody, rfl⟩

theorem restores_members {xs : List Lexeme} {ms : List Member} (h : Grammar.IsMembers xs ms) :
    Restores .free xs fun q ys t => ∃ ms', IsMembers q ys ms' t ∧ ms'.map Member.eraseTemplates = ms := by
  induction h with
  | nil => exact fun ls rest h hls q => ⟨[], ls, q, rfl, hls, h, [], .nil, rfl⟩
  | cons hm _ ih =>
    intro ls rest h hls q
    rw [List.append_assoc] at hls
    obtain ⟨ys, ls₁, p, rfl, hls₁, hfree, m, hmember, rfl⟩ := restores_member hm ls _ h hls q
    obtain ⟨zs, ls₂, t, rfl, hrest, hfree, ms, hmembers, rfl⟩ := ih ls₁ rest hfree hls₁ p
    exact ⟨_, ls₂, t, by simp, hrest, hfree, m :: ms, .cons hmember hmembers, rfl⟩

theorem restores_usings {xs : List Lexeme} {ns : List Named} (h : Grammar.IsUsings xs ns) :
    Restores .free xs fun q ys t => IsUsings q ys ns t := by
  induction h with
  | nil => exact fun ls rest h hls q => ⟨[], ls, q, rfl, hls, h, .nil⟩
  | cons hk hp hs _ ih =>
    intro ls rest h hls q
    simp only [List.append_assoc, List.cons_append] at hls
    obtain ⟨ms, ls₁, rfl, hms, hls₁, hinner⟩ := exists_keyword h hls (inner_word hk)
    obtain ⟨ls₂, rfl, hls₂, hfree⟩ := exists_terminated (inner_path hp) hs hinner hls₁
    obtain ⟨r, hr⟩ := hms q
    obtain ⟨zs, ls₃, t, rfl, hrest, hfree, husings⟩ := ih ls₂ rest hfree hls₂ r
    exact ⟨_, ls₃, t, by simp, hrest, hfree, .cons hr hk hp hs husings⟩

/-- Before its brace, a class has pragmas at the front only. -/
theorem exists_header {ls vs bs mos rest : List Lexeme} {k l c lt gt o : Lexeme} {n base model : Named} (h : Placed .free ls)
    (hls : withoutPragmas ls = vs ++ k :: l :: c :: (bs ++ lt :: (mos ++ gt :: o :: rest))) (hv : IsVisibility vs)
    (hk : IsWord "class" k) (hn : IsName n l) (hc : IsSymbol .colon c) (hb : IsPath bs base) (hl : IsSymbol .less lt)
    (hm : IsPath mos model) (hg : IsSymbol .greater gt) (ho : IsSymbol .openBrace o) : ∃ ps ls',
      ls = ps ++ (vs ++ k :: l :: c :: (bs ++ lt :: (mos ++ gt :: o :: ls'))) ∧ (∀ q, ∃ r, Marks q ps r) ∧
      withoutPragmas ls' = rest ∧ Placed .free ls' := by
  have hline : ∀ x ∈ l :: c :: (bs ++ lt :: mos), Inner x :=
    inner_cons (inner_name hn) (inner_cons (inner_symbol hc rfl) (inner_append (inner_path hb)
      (inner_cons (inner_symbol hl rfl) (inner_path hm))))
  -- What stands behind the first word of the class.
  have hbehind : ∀ {ws ls₁ : List Lexeme}, (∀ x ∈ ws, Inner x) → Placed .inner ls₁ →
      withoutPragmas ls₁ = ws ++ (l :: c :: (bs ++ lt :: (mos ++ gt :: o :: rest))) →
      ∃ ls', ls₁ = ws ++ (l :: c :: (bs ++ lt :: (mos ++ gt :: o :: ls'))) ∧ withoutPragmas ls' = rest ∧ Placed .free ls' := by
    intro ws ls₁ hws hinner hls₁
    obtain ⟨ls₂, rfl, hls₂, hinner⟩ := exists_line (inner_append hws hline) hinner (by simpa using hls₁)
    obtain ⟨ls₃, rfl, hls₃, hclosed⟩ := exists_inner hinner hls₂ fun hbrace => nomatch hg.symm.trans hbrace
    rw [hg] at hclosed
    obtain ⟨ms, ls₄, rfl, -, hrest, hfree, rfl | hgap | hgap⟩ := exists_next hclosed hls₃
    · rw [ho] at hfree
      exact ⟨ls₄, by simp, hrest, hfree⟩
    · cases hgap
    · cases hgap.1
  cases hv with
  | none =>
    obtain ⟨ps, ls₁, rfl, hps, hls₁, hinner⟩ := exists_keyword h hls (inner_word hk)
    obtain ⟨ls', rfl, hrest, hfree⟩ := hbehind (List.forall_mem_nil _) hinner hls₁
    exact ⟨ps, ls', rfl, hps, hrest, hfree⟩
  | hidden hw | visible hw =>
    obtain ⟨ps, ls₁, rfl, hps, hls₁, hinner⟩ := exists_keyword h hls (inner_word hw)
    obtain ⟨ls', rfl, hrest, hfree⟩ := hbehind (inner_one (inner_word hk)) hinner hls₁
    exact ⟨ps, ls', rfl, hps, hrest, hfree⟩

theorem restores_class {xs : List Lexeme} {d : ClassDecl} (h : Grammar.IsClass xs d) : Restores .free xs fun q ys t =>
    ∃ d', IsClass q ys d' t ∧ { d' with members := d'.members.map Member.eraseTemplates } = d := by
  intro ls rest hplaced hls q
  cases h with
  | mk hv hk hn hc hb hl hm hg ho hs he =>
    simp only [List.append_assoc, List.cons_append, List.nil_append] at hls
    obtain ⟨ps, ls₁, rfl, hps, hls₁, hfree⟩ := exists_header hplaced hls hv hk hn hc hb hl hm hg ho
    obtain ⟨r, hr⟩ := hps q
    obtain ⟨ys, ls₂, p, rfl, hls₂, hfree, ms, hms, rfl⟩ := restores_members hs ls₁ _ hfree hls₁ none
    obtain ⟨ps', ls₃, rfl, hps', hrest, hfree, -⟩ := exists_next hfree hls₂
    rw [he] at hfree
    obtain ⟨t, ht⟩ := hps' p
    exact ⟨_, ls₃, t, by simp, hrest, hfree, _, .mk hr hv hk hn hc hb hl hm hg ho hms ht he, rfl⟩

/-- Nothing but pragmas. -/
theorem exists_marks_of_nil {ls : List Lexeme} (h : withoutPragmas ls = []) (q : Pending) : ∃ r, Marks q ls r := by
  induction ls generalizing q with
  | nil => exact ⟨q, .nil⟩
  | cons l ls ih =>
    cases hl : l.isPragma with
    | false =>
      rw [withoutPragmas_cons hl] at h
      cases h
    | true =>
      rw [withoutPragmas_cons_pragma hl] at h
      unfold Lexeme.isPragma at hl
      split at hl
      · rename_i p hp
        obtain ⟨r, hr⟩ := ih h (some p)
        exact ⟨r, .cons hp hr⟩
      · cases hl

/-- A unit whose pragmas stand where they may is a unit if it is one without them. -/
theorem exists_unit {ls : List Lexeme} {u : Tree} (h : Grammar.IsUnit (withoutPragmas ls) u) (hplaced : Placed .free ls) :
    ∃ t, IsUnit ls t ∧ t.eraseTemplates = u := by
  generalize hls : withoutPragmas ls = xs at h
  cases h with
  | @mk ss us cs space usings decl hs hu hc =>
    -- The pragmas at the front belong to the namespace, if there is one.
    obtain ⟨ms, ls₁, q, rfl, hms, hls₁, hfree⟩ : ∃ ms ls₁ q, ls = ms ++ (ss ++ ls₁) ∧ Marks none ms q ∧
        withoutPragmas ls₁ = us ++ cs ∧ Placed .free ls₁ := by
      cases hs with
      | none => exact ⟨[], ls, none, rfl, .nil, hls, hplaced⟩
      | some hk hp hz =>
        simp only [List.append_assoc, List.cons_append, List.nil_append] at hls
        obtain ⟨ms, ls₁, rfl, hms, hls₁, hinner⟩ := exists_keyword hplaced hls (inner_word hk)
        obtain ⟨ls₂, rfl, hls₂, hfree⟩ := exists_terminated (inner_path hp) hz hinner hls₁
        obtain ⟨q, hq⟩ := hms none
        exact ⟨ms, ls₂, q, by simp, hq, hls₂, hfree⟩
    obtain ⟨ys, ls₂, r, rfl, hls₂, hfree, husings⟩ := restores_usings hu ls₁ cs hfree hls₁ q
    obtain ⟨zs, ls₃, t, rfl, hls₃, hfree, d, hclass, rfl⟩ := restores_class hc ls₂ [] hfree (by simpa using hls₂) r
    obtain ⟨p, hp⟩ := exists_marks_of_nil hls₃ t
    exact ⟨_, .mk hms hs husings hclass hp, rfl⟩

end Marked

/-! ### The grammar of units -/

theorem withoutPragmas_eq_self {ls : List Lexeme} (h : ∀ l ∈ ls, l.isPragma = false) : withoutPragmas ls = ls :=
  List.filter_eq_self.mpr fun l hl => by rw [h l hl]; rfl

/-- Tokens without pragmas are read as what they spell. -/
theorem ofLexemes_plain {ls : List Lexeme} (h : ∀ l ∈ ls, l.isPragma = false) (t : Tree) :
    Tree.ofLexemes ls = .ok t ↔ Grammar.IsUnit ls t := by
  refine ⟨fun hread => ?_, fun hunit => (Marked.isUnit_of_plain hunit).reads⟩
  have hunit := (Marked.isUnit_of_ofLexemes hread).plain
  rw [withoutPragmas_eq_self h] at hunit
  -- What the tokens spell has no places in the template, so that this is what is read.
  have hread' := (Marked.isUnit_of_plain hunit).reads
  rw [hread, Except.ok.injEq] at hread'
  rwa [← hread'] at hunit

/-- Tokens without pragmas are read as a unit exactly if they derive from the grammar, and they spell one tree only. With
pragmas, those are read that derive from the grammar with pragmas; and tokens that are read stay so, as the same tree but for
places in the template, exactly if each pragma among them stands where it may. -/
theorem Tree.ofLexemes_grammar :
    (∀ ls : List Lexeme, (∀ l ∈ ls, l.isPragma = false) → ∀ t, Tree.ofLexemes ls = .ok t ↔ Grammar.IsUnit ls t) ∧
    (∀ ls t t', Grammar.IsUnit ls t → Grammar.IsUnit ls t' → t = t') ∧
    (∀ ls t, Tree.ofLexemes ls = .ok t ↔ Marked.IsUnit ls t) ∧
    ∀ ls t, Tree.ofLexemes ls = .ok t → ∀ ls', withoutPragmas ls' = withoutPragmas ls →
      ((∃ t', Tree.ofLexemes ls' = .ok t' ∧ t'.eraseTemplates = t.eraseTemplates) ↔ Placed .free ls') := by
  refine ⟨fun _ => ofLexemes_plain, fun ls t t' h h' => ?_, fun _ _ => Marked.ofLexemes_eq_ok_iff, ?_⟩
  · have hread := (Marked.isUnit_of_plain h).reads
    rw [(Marked.isUnit_of_plain h').reads, Except.ok.injEq] at hread
    exact hread.symm
  · intro ls t hread ls' hsame
    refine ⟨fun ⟨t', hread', _⟩ => (Marked.isUnit_of_ofLexemes hread').placed, fun hplaced => ?_⟩
    have hunit := (Marked.isUnit_of_ofLexemes hread).plain
    rw [← hsame] at hunit
    obtain ⟨t', hunit', herase⟩ := Marked.exists_unit hunit hplaced
    exact ⟨t', hunit'.reads, herase⟩

/-- A unit that writes its model or nothing, with some tokens before each of its parts. -/
def eitherUnit (ps : List Lexeme) : List Lexeme :=
  let word (w : String) : Lexeme := ⟨.name w, .start⟩
  let sym (s : Symbol) : Lexeme := ⟨.symbol s, .start⟩
  ps ++ [word "using", word "Text", sym .semicolon] ++
  ps ++ [word "class", word "Page", sym .colon, word "TemplateBase", sym .less, word "dynamic", sym .greater, sym .openBrace] ++
  ps ++ [word "execute"] ++ ps ++ [sym .openBrace] ++
  ps ++ [word "if", sym .openParen, word "Model", sym .closeParen] ++ ps ++ [sym .openBrace] ++
  ps ++ [word "emit", word "Model", sym .semicolon] ++ ps ++ [sym .closeBrace] ++
  ps ++ [word "else"] ++ ps ++ [sym .openBrace] ++ ps ++ [sym .closeBrace] ++
  ps ++ [sym .closeBrace] ++ ps ++ [sym .closeBrace] ++ ps

theorem withoutPragmas_eitherUnit {ps : List Lexeme} (h : withoutPragmas ps = []) :
    withoutPragmas (eitherUnit ps) = withoutPragmas (eitherUnit []) := by
  have hnil : withoutPragmas [] = [] := rfl
  unfold eitherUnit
  simp only [withoutPragmas_append]
  simp only [h, hnil]

theorem Tree.ofLexemes_grammar_eitherUnit : ∃ t, Tree.ofLexemes (eitherUnit []) = .ok t ∧ Grammar.IsUnit (eitherUnit []) t ∧
    ∃ t', Tree.ofLexemes (eitherUnit [⟨.pragma ⟨7, 1⟩, .start⟩]) = .ok t' ∧ t'.eraseTemplates = t.eraseTemplates := by
  obtain ⟨hplain, -, -, hmarked⟩ := Tree.ofLexemes_grammar
  obtain ⟨t, hread⟩ : ∃ t, Tree.ofLexemes (eitherUnit []) = .ok t := ⟨_, rfl⟩
  have hderives : Grammar.IsUnit (eitherUnit []) t := (hplain (eitherUnit []) (by decide +kernel) t).mp hread
  exact ⟨t, hread, hderives, (hmarked (eitherUnit []) t hread _ (withoutPragmas_eitherUnit rfl)).mpr (by decide +kernel)⟩

end Stencil.Unit
