import Stencil.Proofs.Unit.Expressions

/-! Statements with pragmas, and how they are read.

Pragmas may stand before a statement, before either brace of a block and before an else. The last of them gives the
place that the next statement takes. So a form is related to the place that is pending before it and to the one that is
pending after it. -/

namespace Stencil.Unit.Marked

open Grammar (IsSymbol IsWord IsName IsString IsExpr Stops stops_symbol)

/-- A place that a pragma gave and that no statement has taken yet. -/
abbrev Pending := Option SourcePos

/-- Pragmas, one after another. -/
inductive Marks : Pending → List Lexeme → Pending → Prop
  | nil {q : Pending} : Marks q [] q
  | cons {q r : Pending} {l : Lexeme} {ls : List Lexeme} {p : SourcePos} (hl : l.token = .pragma p)
      (hs : Marks (some p) ls r) : Marks q (l :: ls) r

mutual

/-- A statement after its pragmas. -/
inductive IsStmt : Pending → List Lexeme → Stmt → Pending → Prop
  | write {q r : Pending} {ms : List Lexeme} {k l s : Lexeme} {text : String} (hm : Marks q ms r)
      (hk : IsWord "write" k) (hl : IsString text l) (hs : IsSymbol .semicolon s) :
      IsStmt q (ms ++ [k, l, s]) (.write text) none
  | emit {q r : Pending} {ms ls : List Lexeme} {k s : Lexeme} {e : Expr} (hm : Marks q ms r)
      (hk : IsWord "emit" k) (he : IsExpr .either ls e) (hs : IsSymbol .semicolon s) :
      IsStmt q (ms ++ k :: (ls ++ [s])) (.emit e r) none
  | var {q r : Pending} {ms ls : List Lexeme} {k l a s : Lexeme} {n : Named} {e : Expr} (hm : Marks q ms r)
      (hk : IsWord "var" k) (hn : IsName n l) (ha : IsSymbol .assign a) (he : IsExpr .either ls e)
      (hs : IsSymbol .semicolon s) : IsStmt q (ms ++ k :: l :: a :: (ls ++ [s])) (.var n e r) none
  | ifElse {q r r' : Pending} {ms ls : List Lexeme} {k : Lexeme} {branches : List Branch}
      {otherwise : Option (List Stmt)} (hm : Marks q ms r) (hk : IsWord "if" k)
      (hb : IsAlternatives none ls branches otherwise r') :
      IsStmt q (ms ++ k :: ls) (.ifElse branches otherwise r) r'
  | forEach {q r r' : Pending} {ms ls bs : List Lexeme} {k o v l i c : Lexeme} {n : Named} {e : Expr}
      {body : List Stmt} (hm : Marks q ms r) (hk : IsWord "foreach" k) (ho : IsSymbol .openParen o)
      (hv : IsWord "var" v) (hn : IsName n l) (hi : IsWord "in" i) (he : IsExpr .either ls e)
      (hc : IsSymbol .closeParen c) (hb : IsBlock none bs body r') :
      IsStmt q (ms ++ k :: o :: v :: l :: i :: (ls ++ c :: bs)) (.forEach n e body r) r'
  | defineSection {q r : Pending} {ms : List Lexeme} {k l s : Lexeme} {name : String} (hm : Marks q ms r)
      (hk : IsWord "define_section" k) (hl : IsString name l) (hs : IsSymbol .semicolon s) :
      IsStmt q (ms ++ [k, l, s]) (.defineSection ⟨name, k.pos⟩) none

/-- The conditions and blocks of an alternative, from its first condition on. -/
inductive IsAlternatives : Pending → List Lexeme → List Branch → Option (List Stmt) → Pending → Prop
  | last {q r : Pending} {ls : List Lexeme} {b : Branch} (hb : IsBranch q ls b r) : IsAlternatives q ls [b] none r
  | otherwise {q r r' t : Pending} {ls ms rs : List Lexeme} {k : Lexeme} {b : Branch} {body : List Stmt}
      (hb : IsBranch q ls b r) (hm : Marks r ms r') (hk : IsWord "else" k) (ho : IsBlock none rs body t) :
      IsAlternatives q (ls ++ (ms ++ k :: rs)) [b] (some body) t
  | cons {q r r' t : Pending} {ls ms rs : List Lexeme} {k i : Lexeme} {b : Branch} {bs : List Branch}
      {otherwise : Option (List Stmt)} (hb : IsBranch q ls b r) (hm : Marks r ms r') (hk : IsWord "else" k)
      (hi : IsWord "if" i) (ha : IsAlternatives none rs bs otherwise t) :
      IsAlternatives q (ls ++ (ms ++ k :: i :: rs)) (b :: bs) otherwise t

/-- A condition in parentheses and a block. -/
inductive IsBranch : Pending → List Lexeme → Branch → Pending → Prop
  | mk {q r : Pending} {o c : Lexeme} {ls bs : List Lexeme} {e : Expr} {body : List Stmt} (ho : IsSymbol .openParen o)
      (he : IsExpr .either ls e) (hc : IsSymbol .closeParen c) (hb : IsBlock q bs body r) :
      IsBranch q (o :: (ls ++ c :: bs)) (.mk e body) r

/-- Statements in braces. -/
inductive IsBlock : Pending → List Lexeme → List Stmt → Pending → Prop
  | mk {q r r' t : Pending} {ms ls ms' : List Lexeme} {o c : Lexeme} {ss : List Stmt} (hm : Marks q ms r)
      (ho : IsSymbol .openBrace o) (hs : IsStmts r ls ss r') (hm' : Marks r' ms' t) (hc : IsSymbol .closeBrace c) :
      IsBlock q (ms ++ o :: (ls ++ (ms' ++ [c]))) ss t

/-- Statements, one after another. -/
inductive IsStmts : Pending → List Lexeme → List Stmt → Pending → Prop
  | nil {q : Pending} : IsStmts q [] [] q
  | cons {q r t : Pending} {ls rs : List Lexeme} {s : Stmt} {ss : List Stmt} (hs : IsStmt q ls s r)
      (hr : IsStmts r rs ss t) : IsStmts q (ls ++ rs) (s :: ss) t

end

/-! ### Pragmas at the front -/

section
variable {q r : Pending} {l : Lexeme} {ls ms rest : List Lexeme} {f : SourcePos}

/-- The token is no pragma. -/
def NoPragma (l : Lexeme) : Prop := ∀ p, l.token ≠ .pragma p

theorem noPragma_word {w : String} (h : IsWord w l) : NoPragma l := fun _ hp => nomatch h.symm.trans hp

theorem noPragma_symbol {s : Symbol} (h : IsSymbol s l) : NoPragma l := fun _ hp => nomatch h.symm.trans hp

theorem takePragmas_noPragma (h : NoPragma l) : (⟨l :: ls, f, q⟩ : Input).takePragmas = ⟨l :: ls, f, q⟩ := by
  have hsplit : Input.splitPragmas (l :: ls) = ([], l :: ls) := by
    unfold Input.splitPragmas
    split
    · rename_i p pos rest heq
      cases heq
      exact absurd rfl (h p)
    · rfl
  rw [Input.takePragmas, hsplit]
  rfl

theorem takePragmas_cons {p : SourcePos} (h : l.token = .pragma p) :
    (⟨l :: ls, f, q⟩ : Input).takePragmas = (⟨ls, f, some p⟩ : Input).takePragmas := by
  obtain ⟨token, pos⟩ := l
  cases h
  show Input.mk (Input.splitPragmas ls).2 f (((p :: (Input.splitPragmas ls).1).getLast?).or q) =
    Input.mk (Input.splitPragmas ls).2 f ((Input.splitPragmas ls).1.getLast?.or (some p))
  cases (Input.splitPragmas ls).1 with
  | nil => rfl
  | cons a as =>
    rw [List.getLast?_cons_cons, List.getLast?_cons]
    rfl

/-- Pragmas are taken, and the place that is pending after them is left. -/
theorem Marks.takePragmas (h : Marks q ms r) (rest : List Lexeme) (f : SourcePos) :
    (⟨ms ++ rest, f, q⟩ : Input).takePragmas = (⟨rest, f, r⟩ : Input).takePragmas := by
  induction h with
  | nil => rfl
  | cons hl _ ih => exact (takePragmas_cons hl).trans ih

theorem Marks.takePragmas_cons (h : Marks q ms r) (hl : NoPragma l) (rest : List Lexeme) (f : SourcePos) :
    (⟨ms ++ l :: rest, f, q⟩ : Input).takePragmas = ⟨l :: rest, f, r⟩ :=
  (h.takePragmas (l :: rest) f).trans (takePragmas_noPragma hl)

theorem splitPragmas_splitPragmas (ls : List Lexeme) :
    Input.splitPragmas (Input.splitPragmas ls).2 = ([], (Input.splitPragmas ls).2) := by
  induction ls using Input.splitPragmas.induct with
  | case1 p pos rest _ _ _ ih => exact ih
  | case2 ls h =>
    have hsplit : Input.splitPragmas ls = ([], ls) := by
      unfold Input.splitPragmas
      split
      · rename_i p pos rest
        exact absurd rfl (h p pos rest)
      · rfl
    rw [hsplit]
    exact hsplit

/-- Once the pragmas have been taken, there are none to take. -/
theorem takePragmas_takePragmas (i : Input) : i.takePragmas.takePragmas = i.takePragmas := by
  unfold Input.takePragmas
  simp only [splitPragmas_splitPragmas]
  rfl

/-- After the pragmas that come next, no else follows. -/
def NoElse (rest : List Lexeme) : Prop := ∀ f q, elseWord? ⟨rest, f, q⟩ = none

theorem Marks.elseWord? (h : Marks q ms r) : elseWord? ⟨ms ++ rest, f, q⟩ = elseWord? ⟨rest, f, r⟩ := by
  unfold Unit.elseWord?
  rw [h.takePragmas]

theorem elseWord?_cons (hl : NoPragma l) : elseWord? ⟨l :: rest, f, q⟩ =
    if (⟨l :: rest, f, q⟩ : Input).atWord "else" then some ⟨rest, f, none⟩ else none := by
  unfold Unit.elseWord?
  rw [takePragmas_noPragma hl]
  rfl

theorem atWord_cons {w w' : String} (h : IsWord w l) : (⟨l :: rest, f, q⟩ : Input).atWord w' = (w == w') := by
  obtain ⟨token, pos⟩ := l
  cases h
  rfl

theorem atWord_symbol {s : Symbol} {w : String} (h : IsSymbol s l) : (⟨l :: rest, f, q⟩ : Input).atWord w = false := by
  obtain ⟨token, pos⟩ := l
  cases h
  rfl

theorem atWord_mark {p : SourcePos} {w : String} (h : l.token = .pragma p) :
    (⟨l :: rest, f, q⟩ : Input).atWord w = false := by
  obtain ⟨token, pos⟩ := l
  cases h
  rfl

theorem atSymbol_word {s : Symbol} {w : String} (h : IsWord w l) : (⟨l :: rest, f, q⟩ : Input).atSymbol s = false := by
  obtain ⟨token, pos⟩ := l
  cases h
  rfl

theorem Marks.elseWord?_else (h : Marks q ms r) (hl : IsWord "else" l) :
    Unit.elseWord? ⟨ms ++ l :: rest, f, q⟩ = some ⟨rest, f, none⟩ := by
  rw [h.elseWord?, elseWord?_cons (noPragma_word hl), atWord_cons hl]
  rfl

theorem noElse_marks (hm : ∀ q, ∃ r, Marks q ms r) (h : NoElse rest) : NoElse (ms ++ rest) := by
  intro f q
  obtain ⟨r, hr⟩ := hm q
  rw [hr.elseWord?, h]

theorem noElse_word {w : String} (hl : IsWord w l) (hw : (w == "else") = false) : NoElse (l :: rest) := by
  intro f q
  rw [elseWord?_cons (noPragma_word hl), atWord_cons hl, hw]
  rfl

theorem noElse_symbol {s : Symbol} (hl : IsSymbol s l) : NoElse (l :: rest) := by
  intro f q
  rw [elseWord?_cons (noPragma_symbol hl), atWord_symbol hl]
  rfl

/-- The same pragmas stand behind any pending place. -/
theorem Marks.exists (h : Marks q ms r) (q' : Pending) : ∃ r', Marks q' ms r' := by
  cases h with
  | nil => exact ⟨q', .nil⟩
  | cons hl hs => exact ⟨_, .cons hl hs⟩

end

/-! ### What the keyword of a statement decides -/

section
variable {b : Reader (List Stmt)} {fuel : Nat} {q r : Pending} {k l s : Lexeme} {ms rest : List Lexeme} {f pos : SourcePos}

/-- The pragmas before a statement only tell its place. -/
theorem statement_marks {w : String} (hm : Marks q ms r) (hk : IsWord w k) (rest : List Lexeme) :
    statement b fuel ⟨ms ++ k :: rest, f, q⟩ = statement b fuel ⟨⟨.name w, k.pos⟩ :: rest, f, r⟩ := by
  obtain ⟨token, pos⟩ := k
  cases hk
  have hl : NoPragma ⟨.name w, pos⟩ := noPragma_word (w := w) rfl
  unfold statement
  rw [hm.takePragmas_cons hl, takePragmas_noPragma hl]

theorem statement_word {w : String} (rest : List Lexeme) : statement b fuel ⟨⟨.name w, pos⟩ :: rest, f, q⟩ =
    let j : Input := ⟨rest, f, none⟩
    match w with
    | "write" => terminated (fun i => do let (s, i) ← string i; return (.write s, i)) j
    | "emit" => terminated (fun i => do let (e, i) ← expr fuel i; return (.emit e q, i)) j
    | "var" => terminated (variableDecl fuel q) j
    | "define_section" =>
      terminated (fun k => do let (s, k) ← string k; return (.defineSection ⟨s, pos⟩, k)) j
    | "if" => do
      let ((branches, otherwise), j) ← alternatives b fuel j
      return (.ifElse branches otherwise q, j)
    | "foreach" => forEach b fuel q j
    | _ => throw (pos, .unknownStatement w) := by
  have hl : NoPragma ⟨.name w, pos⟩ := noPragma_word (w := w) rfl
  unfold statement
  rw [takePragmas_noPragma hl]
  rfl

theorem terminated_eq_ok {α : Type} {read : Reader α} {i : Input} {a : α}
    (h : read i = .ok (a, ⟨s :: rest, f, q⟩)) (hs : IsSymbol .semicolon s) :
    terminated read i = .ok (a, ⟨rest, f, q⟩) := by
  rw [terminated, h]
  show (Input.expect .semicolon ⟨s :: rest, f, q⟩ >>= fun i => pure (a, i)) = _
  rw [Input.expect_cons hs]
  rfl

theorem string_cons {text : String} (h : IsString text l) : string ⟨l :: rest, f, q⟩ = .ok (text, ⟨rest, f, q⟩) := by
  obtain ⟨token, pos⟩ := l
  cases h
  rfl

theorem expectWord_cons {w : String} (h : IsWord w l) :
    (⟨l :: rest, f, q⟩ : Input).expectWord w = .ok ⟨rest, f, q⟩ := by
  rw [Input.expectWord, atWord_cons h, beq_self_eq_true]
  rfl

end

/-! ### Reading -/

/-- Statements start with a word that is no else. -/
theorem IsStmt.starts {q t : Pending} {ls : List Lexeme} {s : Stmt} (h : IsStmt q ls s t) :
    ∃ ms r k w rs, ls = ms ++ k :: rs ∧ Marks q ms r ∧ IsWord w k ∧ (w == "else") = false := by
  cases h with
  | write hm hk | emit hm hk | var hm hk | ifElse hm hk | forEach hm hk | defineSection hm hk =>
    exact ⟨_, _, _, _, _, rfl, hm, hk, rfl⟩

/-- A block does not start with a word. -/
theorem IsBlock.atWord {q t : Pending} {ls : List Lexeme} {ss : List Stmt} (h : IsBlock q ls ss t) (rest : List Lexeme)
    (f : SourcePos) {p : Pending} {w : String} : (⟨ls ++ rest, f, p⟩ : Input).atWord w = false := by
  cases h with
  | mk hm ho =>
    cases hm with
    | nil => exact atWord_symbol ho
    | cons hl => exact atWord_mark hl

theorem IsStmts.noElse {q r t : Pending} {ls ms rest : List Lexeme} {ss : List Stmt} {c : Lexeme}
    (h : IsStmts q ls ss r) (hm : Marks r ms t) (hc : IsSymbol .closeBrace c) :
    NoElse (ls ++ (ms ++ c :: rest)) := by
  cases h with
  | nil =>
    rw [List.nil_append]
    exact noElse_marks hm.exists (noElse_symbol hc)
  | cons hs =>
    obtain ⟨ms', r', k, w, rs, rfl, hm', hk, hw⟩ := hs.starts
    rw [List.append_assoc, List.append_assoc]
    exact noElse_marks hm'.exists (noElse_word hk hw)

theorem condition_reads {fuel : Nat} {o c : Lexeme} {ls : List Lexeme} {e : Expr} (ho : IsSymbol .openParen o)
    (he : IsExpr .either ls e) (hc : IsSymbol .closeParen c) (hfuel : ls.length < fuel) (rest : List Lexeme)
    (f : SourcePos) (q : Pending) : condition fuel ⟨o :: (ls ++ c :: rest), f, q⟩ = .ok (e, ⟨rest, f, q⟩) := by
  have hread := reads_expr he hfuel (c :: rest) f q (stops_symbol hc (by decide) rest)
  rw [condition, Input.expect_cons ho]
  show (expr fuel ⟨ls ++ c :: rest, f, q⟩ >>= fun r => r.2.expect .closeParen >>= fun i => pure (r.1, i)) = _
  rw [hread]
  show (Input.expect .closeParen ⟨c :: rest, f, q⟩ >>= fun i => pure (e, i)) = _
  rw [Input.expect_cons hc]
  rfl

mutual

/-- A statement is read as what its tokens spell. -/
theorem IsStmt.reads {q t : Pending} {ls : List Lexeme} {s : Stmt} :
    IsStmt q ls s t → ∀ {F fuel : Nat}, ls.length ≤ F → ls.length ≤ fuel → ∀ rest f, NoElse rest →
      statement (block F) fuel ⟨ls ++ rest, f, q⟩ = .ok (s, ⟨rest, f, t⟩)
  | @IsStmt.write _ _ _ _ l s _ hm hk hl hs, _, _, _, _, rest, f, _ => by
    rw [List.append_assoc, List.cons_append, statement_marks hm hk, statement_word]
    refine terminated_eq_ok (s := s) ?_ hs
    show (string ⟨l :: s :: rest, f, none⟩ >>= _) = _
    rw [string_cons hl]
    rfl
  | @IsStmt.emit _ _ _ ls _ s _ hm hk he hs, _, fuel, _, hfuel, rest, f, _ => by
    simp only [List.length_append, List.length_cons] at hfuel
    have hread := reads_expr he (F := fuel) (by omega) (s :: rest) f none (stops_symbol hs (by decide) rest)
    rw [List.append_assoc, List.cons_append, statement_marks hm hk, statement_word, List.append_assoc]
    refine terminated_eq_ok (s := s) ?_ hs
    show (expr fuel ⟨ls ++ s :: rest, f, none⟩ >>= _) = _
    rw [hread]
    rfl
  | @IsStmt.var _ _ _ ls _ _ a s _ _ hm hk hn ha he hs, _, fuel, _, hfuel, rest, f, _ => by
    simp only [List.length_append, List.length_cons] at hfuel
    have hread := reads_expr he (F := fuel) (by omega) (s :: rest) f none (stops_symbol hs (by decide) rest)
    rw [List.append_assoc, List.cons_append, statement_marks hm hk, statement_word, List.cons_append, List.cons_append,
      List.append_assoc]
    refine terminated_eq_ok (s := s) ?_ hs
    rw [variableDecl, name_cons hn]
    show (Input.expect .assign ⟨a :: (ls ++ s :: rest), f, none⟩ >>= fun i => expr fuel i >>= _) = _
    rw [Input.expect_cons ha]
    show (expr fuel ⟨ls ++ s :: rest, f, none⟩ >>= _) = _
    rw [hread]
    rfl
  | @IsStmt.ifElse _ _ _ _ ls _ _ _ hm hk hb, F, fuel, hF, hfuel, rest, f, hrest => by
    simp only [List.length_append, List.length_cons] at hF hfuel
    rw [List.append_assoc, List.cons_append, statement_marks hm hk, statement_word]
    show (alternatives (block F) fuel ⟨ls ++ rest, f, none⟩ >>= _) = _
    rw [hb.reads (by omega) (by omega) rest f hrest]
    rfl
  | @IsStmt.forEach _ _ _ _ ls bs _ o v l i c _ _ _ hm hk ho hv hn hi he hc hb,
      F, fuel, hF, hfuel, rest, f, _ => by
    simp only [List.length_append, List.length_cons] at hF hfuel
    have hread := reads_expr he (F := fuel) (by omega) (c :: (bs ++ rest)) f none (stops_symbol hc (by decide) _)
    rw [List.append_assoc, List.cons_append, statement_marks hm hk, statement_word]
    show forEach (block F) fuel _ ⟨o :: v :: l :: i :: (ls ++ c :: bs) ++ rest, f, none⟩ = _
    rw [show o :: v :: l :: i :: (ls ++ c :: bs) ++ rest = o :: v :: l :: i :: (ls ++ c :: (bs ++ rest)) by simp,
      forEach, Input.expect_cons ho]
    show (Input.expectWord "var" ⟨v :: l :: i :: (ls ++ c :: (bs ++ rest)), f, none⟩ >>= _) = _
    rw [expectWord_cons hv]
    show (name ⟨l :: i :: (ls ++ c :: (bs ++ rest)), f, none⟩ >>= _) = _
    rw [name_cons hn]
    show (Input.expectWord "in" ⟨i :: (ls ++ c :: (bs ++ rest)), f, none⟩ >>= _) = _
    rw [expectWord_cons hi]
    show (expr fuel ⟨ls ++ c :: (bs ++ rest), f, none⟩ >>= _) = _
    rw [hread]
    show (Input.expect .closeParen ⟨c :: (bs ++ rest), f, none⟩ >>= _) = _
    rw [Input.expect_cons hc]
    show (block F ⟨bs ++ rest, f, none⟩ >>= _) = _
    rw [hb.reads (by omega) rest f]
    rfl
  | @IsStmt.defineSection _ _ _ _ l s _ hm hk hl hs, _, _, _, _, rest, f, _ => by
    rw [List.append_assoc, List.cons_append, statement_marks hm hk, statement_word]
    refine terminated_eq_ok (s := s) ?_ hs
    show (string ⟨l :: s :: rest, f, none⟩ >>= _) = _
    rw [string_cons hl]
    rfl

theorem IsAlternatives.reads {q t : Pending} {ls : List Lexeme} {bs : List Branch} {otherwise : Option (List Stmt)} :
    IsAlternatives q ls bs otherwise t → ∀ {F fuel : Nat}, ls.length ≤ F → ls.length < fuel → ∀ rest f, NoElse rest →
      alternatives (block F) fuel ⟨ls ++ rest, f, q⟩ = .ok ((bs, otherwise), ⟨rest, f, t⟩)
  | .last hb, F, fuel, hF, hfuel, rest, f, hrest => by
    obtain ⟨fuel, rfl⟩ := Nat.exists_eq_add_one.mpr (Nat.zero_lt_of_lt hfuel)
    obtain ⟨cond, body, i, rfl, hcond, hblock⟩ := hb.reads hF (Nat.le_of_lt_succ hfuel) rest f
    rw [alternatives, hcond]
    show (block F i >>= _) = _
    rw [hblock]
    show (match elseWord? ⟨rest, f, t⟩ with | none => _ | some j => _) = _
    -- No `else` stands behind the last alternative.
    rw [hrest]
    rfl
  | @IsAlternatives.otherwise _ _ _ _ ls ms rs k _ _ hb hm hk ho, F, fuel, hF, hfuel, rest, f, hrest => by
    simp only [List.length_append, List.length_cons] at hF hfuel
    obtain ⟨fuel, rfl⟩ := Nat.exists_eq_add_one.mpr (Nat.zero_lt_of_lt hfuel)
    have hlF : ls.length ≤ F := by omega
    have hlfuel : ls.length ≤ fuel := by omega
    obtain ⟨cond, body, i, rfl, hcond, hblock⟩ := hb.reads hlF hlfuel (ms ++ k :: (rs ++ rest)) f
    rw [show ls ++ (ms ++ k :: rs) ++ rest = ls ++ (ms ++ k :: (rs ++ rest)) by simp, alternatives, hcond]
    show (block F i >>= _) = _
    rw [hblock]
    show (match elseWord? ⟨ms ++ k :: (rs ++ rest), f, _⟩ with | none => _ | some j => _) = _
    rw [hm.elseWord?_else hk]
    -- A block starts with a brace, so it is not taken for another condition.
    have hif : (⟨rs ++ rest, f, none⟩ : Input).atWord "if" = false := ho.atWord _ _
    show (if (⟨rs ++ rest, f, none⟩ : Input).atWord "if" then _ else _) = _
    rw [hif, if_neg Bool.false_ne_true, IsBlock.reads ho (by omega) rest f]
    rfl
  | @IsAlternatives.cons _ _ _ _ ls ms rs k i _ _ _ hb hm hk hi ha, F, fuel, hF, hfuel, rest, f, hrest => by
    simp only [List.length_append, List.length_cons] at hF hfuel
    obtain ⟨fuel, rfl⟩ := Nat.exists_eq_add_one.mpr (Nat.zero_lt_of_lt hfuel)
    have hlF : ls.length ≤ F := by omega
    have hlfuel : ls.length ≤ fuel := by omega
    obtain ⟨cond, body, j, rfl, hcond, hblock⟩ := hb.reads hlF hlfuel (ms ++ k :: i :: (rs ++ rest)) f
    rw [show ls ++ (ms ++ k :: i :: rs) ++ rest = ls ++ (ms ++ k :: i :: (rs ++ rest)) by simp, alternatives, hcond]
    show (block F j >>= _) = _
    rw [hblock]
    show (match elseWord? ⟨ms ++ k :: i :: (rs ++ rest), f, _⟩ with | none => _ | some j => _) = _
    rw [hm.elseWord?_else hk]
    show (if (⟨i :: (rs ++ rest), f, none⟩ : Input).atWord "if" then _ else _) = _
    rw [atWord_cons hi]
    show (alternatives (block F) fuel ⟨rs ++ rest, f, none⟩ >>= _) = _
    rw [ha.reads (by omega) (by omega) rest f hrest]
    rfl

theorem IsBranch.reads {q t : Pending} {ls : List Lexeme} {b : Branch} :
    IsBranch q ls b t → ∀ {F fuel : Nat}, ls.length ≤ F → ls.length ≤ fuel → ∀ rest f, ∃ cond body i, b = .mk cond body ∧
      condition fuel ⟨ls ++ rest, f, q⟩ = .ok (cond, i) ∧ block F i = .ok (body, ⟨rest, f, t⟩)
  | @IsBranch.mk q _ o c ls bs e body ho he hc hb, F, fuel, hF, hfuel, rest, f => by
    simp only [List.length_append, List.length_cons] at hF hfuel
    refine ⟨e, body, ⟨bs ++ rest, f, q⟩, rfl, ?_, hb.reads (by omega) rest f⟩
    rw [show o :: (ls ++ c :: bs) ++ rest = o :: (ls ++ c :: (bs ++ rest)) by simp]
    exact condition_reads ho he hc (by omega) _ f q

theorem IsBlock.reads {q t : Pending} {ls : List Lexeme} {ss : List Stmt} :
    IsBlock q ls ss t → ∀ {F : Nat}, ls.length ≤ F → ∀ rest f, block F ⟨ls ++ rest, f, q⟩ = .ok (ss, ⟨rest, f, t⟩)
  | @IsBlock.mk _ _ _ _ ms ls ms' o c _ hm ho hs hm' hc, F, hF, rest, f => by
    simp only [List.length_append, List.length_cons] at hF
    rw [show ms ++ o :: (ls ++ (ms' ++ [c])) ++ rest = ms ++ o :: (ls ++ (ms' ++ c :: rest)) by simp, block,
      hm.takePragmas_cons (noPragma_symbol ho), Input.expect_cons ho]
    exact hs.reads hm' hc (by omega) rest f

theorem IsStmts.reads {q r t : Pending} {ls ms : List Lexeme} {ss : List Stmt} {c : Lexeme} :
    IsStmts q ls ss r → Marks r ms t → IsSymbol .closeBrace c → ∀ {F : Nat}, ls.length < F → ∀ rest f,
      statements F ⟨ls ++ (ms ++ c :: rest), f, q⟩ = .ok (ss, ⟨rest, f, t⟩)
  | .nil, hm, hc, F, hF, rest, f => by
    obtain ⟨F, rfl⟩ := Nat.exists_eq_add_one.mpr (Nat.zero_lt_of_lt hF)
    have hclose : (⟨c :: rest, f, t⟩ : Input).atSymbol .closeBrace = true := Input.atSymbol_cons hc _
    rw [List.nil_append, statements, hm.takePragmas_cons (noPragma_symbol hc), hclose]
    rfl
  | @IsStmts.cons _ _ _ ls rs _ _ hs hr, hm, hc, F, hF, rest, f => by
    simp only [List.length_append] at hF
    obtain ⟨F, rfl⟩ := Nat.exists_eq_add_one.mpr (Nat.zero_lt_of_lt hF)
    have hnoElse : NoElse (rs ++ (ms ++ c :: rest)) := hr.noElse hm hc
    have hlF : ls.length ≤ F := by omega
    have hstmt := hs.reads hlF (Nat.le_succ_of_le hlF) _ f hnoElse
    obtain ⟨ms', p, k, w, rs', rfl, hm', hk, -⟩ := hs.starts
    rw [List.length_append, List.length_cons] at hF
    have hrF : rs.length < F := by omega
    have hstmts := hr.reads hm hc hrF rest f
    have hlist : ms' ++ k :: rs' ++ rs ++ (ms ++ c :: rest) = ms' ++ k :: (rs' ++ (rs ++ (ms ++ c :: rest))) := by simp
    rw [List.append_assoc, List.cons_append, statement_marks hm' hk] at hstmt
    -- The pragmas are taken before the statement is read.
    rw [hlist, statements, hm'.takePragmas_cons (noPragma_word hk), atSymbol_word hk]
    show (statement (block F) (F + 1) ⟨[] ++ k :: (rs' ++ (rs ++ (ms ++ c :: rest))), f, p⟩ >>= _) = _
    rw [statement_marks .nil hk, hstmt]
    show (statements F ⟨rs ++ (ms ++ c :: rest), f, _⟩ >>= _) = _
    rw [hstmts]
    rfl

end

end Stencil.Unit.Marked
