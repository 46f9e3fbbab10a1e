import Stencil.Proofs.Unit.Classes

/-! Which tokens are read as a unit.

Each reader takes the tokens of its own form from the front, and the pragmas that may stand before them. So what is read
spells what it is read as, and with what is known about reading such forms, exactly the units are read. -/

namespace Stencil.Unit

open Grammar (IsSymbol IsWord IsName IsString IsExpr IsPath IsNames IsParams IsVisibility IsSpace)

/-! ### Tokens at the front -/

namespace Input
variable {i j : Input} {ls : List Lexeme} {w : String}

theorem Takes.lexemes (h : i.Takes ls j) : i.lexemes = ls ++ j.lexemes := by
  rw [h]

theorem Takes.pending (h : i.Takes ls j) : i.pending = j.pending := by
  rw [h]

theorem atWord_iff : i.atWord w = true ↔ i.peek? = some (.name w) := by
  unfold atWord
  split
  · rename_i n h
    simp [h]
  · rename_i h
    exact ⟨fun h' => (Bool.false_ne_true h').elim, fun h' => (h w h').elim⟩

theorem takes_word (h : i.atWord w = true) : i.Takes [⟨.name w, i.pos⟩] i.next := takes_next (atWord_iff.mp h)

theorem takes_expectWord (h : i.expectWord w = .ok j) : i.Takes [⟨.name w, i.pos⟩] j := by
  unfold expectWord at h
  split at h
  · rename_i hw
    cases h
    exact takes_word hw
  · cases h

end Input

/-! ### Names -/

theorem spells_string : Spells string fun ls s => ∃ l, ls = [l] ∧ IsString s l := by
  intro i s j h
  unfold string at h
  split at h
  · rename_i s' hs
    cases h
    exact ⟨_, Input.takes_next hs, _, rfl, rfl⟩
  · cases h

theorem pathRest_spells (fuel : Nat) {i j : Input} {m n : Named} (h : pathRest fuel m i = .ok (n, j)) {ls : List Lexeme}
    (hm : IsPath ls m) : ∃ rs, i.Takes rs j ∧ IsPath (ls ++ rs) n := by
  induction fuel generalizing i m ls with
  | zero => cases h
  | succ fuel ih =>
    unfold pathRest at h
    split at h
    · rename_i hdot
      obtain ⟨⟨n', i'⟩, hname, h⟩ := Except.bind_eq_ok.mp h
      obtain ⟨_, htakes, l, rfl, hn⟩ := spells_name _ _ _ hname
      have hd := Input.takes_next (Input.atSymbol_iff.mp hdot)
      obtain ⟨rs, htakes', hall⟩ := ih h (.dot (d := ⟨.symbol .dot, i.pos⟩) hm rfl hn)
      refine ⟨_, (hd.trans htakes).trans htakes', ?_⟩
      rwa [List.append_assoc] at hall
    · cases h
      refine ⟨[], .refl _, ?_⟩
      rwa [List.append_nil]

theorem spells_path (fuel : Nat) : Spells (path fuel) IsPath := by
  intro i n j h
  obtain ⟨⟨m, i'⟩, hname, h⟩ := Except.bind_eq_ok.mp h
  obtain ⟨_, htakes, l, rfl, hm⟩ := spells_name _ _ _ hname
  obtain ⟨rs, htakes', hall⟩ := pathRest_spells fuel h (.name hm)
  exact ⟨_, htakes.trans htakes', hall⟩

/-- Names up to the closing parenthesis. -/
theorem spells_names (fuel : Nat) :
    Spells (commaList name fuel) fun ls ns => ∃ rs c, ls = rs ++ [c] ∧ IsNames rs ns ∧ IsSymbol .closeParen c := by
  induction fuel with
  | zero =>
    intro i ns j h
    cases h
  | succ fuel ih =>
    intro i ns j h
    obtain ⟨⟨n, i'⟩, hname, h⟩ := Except.bind_eq_ok.mp h
    obtain ⟨_, htakes, l, rfl, hn⟩ := spells_name _ _ _ hname
    dsimp only at h
    split at h
    · rename_i hclose
      cases h
      exact ⟨_, htakes.trans (Input.takes_next (Input.atSymbol_iff.mp hclose)), [l], _, rfl, .one hn, rfl⟩
    · obtain ⟨i'', hcomma, h⟩ := Except.bind_eq_ok.mp h
      obtain ⟨⟨ns', j'⟩, hlist, h⟩ := Except.bind_eq_ok.mp h
      cases h
      obtain ⟨_, htakes', rs, c, rfl, hns, hc⟩ := ih _ _ _ hlist
      exact ⟨_, htakes.trans ((Input.takes_expect hcomma).trans htakes'), l :: _ :: rs, c, rfl, .cons hn rfl hns, hc⟩

theorem spells_params (fuel : Nat) : Spells (parenthesizedList name fuel) IsParams := by
  intro i ns j h
  unfold parenthesizedList at h
  split at h
  · rename_i hclose
    cases h
    exact ⟨_, Input.takes_next (Input.atSymbol_iff.mp hclose), .nil rfl⟩
  · obtain ⟨_, htakes, rs, c, rfl, hns, hc⟩ := spells_names fuel _ _ _ h
    exact ⟨_, htakes, .names hns hc⟩

namespace Marked

/-! ### Pragmas at the front -/

theorem Marks.trans {q r t : Pending} {ls rs : List Lexeme} (h : Marks q ls r) (h' : Marks r rs t) : Marks q (ls ++ rs) t := by
  induction h with
  | nil => exact h'
  | cons hl _ ih => exact .cons hl (ih h')

/-- The pragmas that are taken stand at the front. -/
theorem exists_marks (i : Input) :
    ∃ ms, i.lexemes = ms ++ i.takePragmas.lexemes ∧ Marks i.pending ms i.takePragmas.pending := by
  obtain ⟨ls, f, q⟩ := i
  induction ls generalizing q with
  | nil => exact ⟨[], rfl, .nil⟩
  | cons l ls ih =>
    by_cases hl : ∃ p, l.token = .pragma p
    · obtain ⟨p, hp⟩ := hl
      obtain ⟨ms, hms, hmarks⟩ := ih (some p)
      rw [takePragmas_cons hp]
      exact ⟨l :: ms, congrArg (l :: ·) hms, .cons hp hmarks⟩
    · rw [takePragmas_noPragma fun p hp => hl ⟨p, hp⟩]
      exact ⟨[], rfl, .nil⟩

/-- What the reader takes and what it gives are related, given the places that are pending before it and after it. -/
def Spells (r : Reader α) (P : Pending → List Lexeme → α → Pending → Prop) : Prop :=
  ∀ i a j, r i = .ok (a, j) → ∃ ls, i.lexemes = ls ++ j.lexemes ∧ P i.pending ls a j.pending

/-! ### Statements -/

/-- What is read as a statement starts with pragmas and a word. -/
theorem statement_inv {b : Reader (List Stmt)} {fuel : Nat} {i : Input} {r : Stmt × Input} (h : statement b fuel i = .ok r) :
    ∃ ms p w pos rest, i.lexemes = ms ++ ⟨.name w, pos⟩ :: rest ∧ Marks i.pending ms p ∧
      statement b fuel ⟨⟨.name w, pos⟩ :: rest, i.finish, p⟩ = .ok r := by
  obtain ⟨ms, hms, hmarks⟩ := exists_marks i
  rcases hrest : i.takePragmas.lexemes with _ | ⟨⟨token, pos⟩, rest⟩
  · unfold statement at h
    simp only [Input.takePending, Input.peek?, hrest, List.head?_nil, Option.map_none] at h
    cases h
  · by_cases hw : ∃ w, token = .name w
    · obtain ⟨w, rfl⟩ := hw
      rw [hrest] at hms
      refine ⟨ms, _, w, pos, rest, hms, hmarks, ?_⟩
      rw [← statement_marks hmarks (k := ⟨.name w, pos⟩) rfl rest, ← hms]
      exact h
    · unfold statement at h
      simp only [Input.takePending, Input.peek?, hrest, List.head?_cons, Option.map_some] at h
      split at h
      · rename_i w hword
        exact (hw ⟨w, Option.some.inj hword⟩).elim
      · cases h

theorem spells_map {α β : Type} {read : Reader α} {P : List Lexeme → α → Prop} (hread : Unit.Spells read P) (f : α → β) :
    Unit.Spells (fun i => read i >>= fun r => pure (f r.1, r.2)) fun ls b => ∃ a, b = f a ∧ P ls a := by
  intro i b j h
  obtain ⟨⟨a, k⟩, ha, h⟩ := Except.bind_eq_ok.mp h
  cases h
  obtain ⟨ls, htakes, hp⟩ := hread _ _ _ ha
  exact ⟨ls, htakes, a, rfl, hp⟩

theorem spells_terminated {α : Type} {read : Reader α} {P : List Lexeme → α → Prop} (hread : Unit.Spells read P) :
    Unit.Spells (terminated read) fun ls a => ∃ rs s, ls = rs ++ [s] ∧ P rs a ∧ IsSymbol .semicolon s := by
  intro i a j h
  obtain ⟨⟨b, k⟩, hb, h⟩ := Except.bind_eq_ok.mp h
  obtain ⟨m, hm, h⟩ := Except.bind_eq_ok.mp h
  cases h
  obtain ⟨rs, htakes, hp⟩ := hread _ _ _ hb
  exact ⟨_, htakes.trans (Input.takes_expect hm), rs, _, rfl, hp, rfl⟩

theorem spells_variableDecl (fuel : Nat) (pos : Option SourcePos) :
    Unit.Spells (variableDecl fuel pos) fun ls s => ∃ l a es n e, ls = l :: a :: es ∧ s = .var n e pos ∧ IsName n l ∧
      IsSymbol .assign a ∧ IsExpr .either es e := by
  intro i s j h
  obtain ⟨⟨n, i₁⟩, hname, h⟩ := Except.bind_eq_ok.mp h
  obtain ⟨i₂, hassign, h⟩ := Except.bind_eq_ok.mp h
  obtain ⟨⟨e, i₃⟩, hexpr, h⟩ := Except.bind_eq_ok.mp h
  cases h
  obtain ⟨_, hl, l, rfl, hn⟩ := spells_name _ _ _ hname
  obtain ⟨es, hes, he⟩ := spells_expr fuel _ _ _ hexpr
  exact ⟨_, hl.trans ((Input.takes_expect hassign).trans hes), l, _, es, n, e, rfl, rfl, hn, rfl, he⟩

theorem spells_condition (fuel : Nat) : Unit.Spells (condition fuel) fun ls e =>
    ∃ o es c, ls = o :: (es ++ [c]) ∧ IsSymbol .openParen o ∧ IsExpr .either es e ∧ IsSymbol .closeParen c := by
  intro i e j h
  obtain ⟨i₁, hopen, h⟩ := Except.bind_eq_ok.mp h
  obtain ⟨⟨e', i₂⟩, hexpr, h⟩ := Except.bind_eq_ok.mp h
  obtain ⟨i₃, hclose, h⟩ := Except.bind_eq_ok.mp h
  cases h
  obtain ⟨es, hes, he⟩ := spells_expr fuel _ _ _ hexpr
  exact ⟨_, (Input.takes_expect hopen).trans (hes.trans (Input.takes_expect hclose)), _, es, _, rfl, rfl, he, rfl⟩

theorem elseWord?_inv {i j : Input} (h : elseWord? i = some j) :
    ∃ ms k p, i.lexemes = ms ++ k :: j.lexemes ∧ Marks i.pending ms p ∧ IsWord "else" k ∧ j.pending = none := by
  obtain ⟨ms, hms, hmarks⟩ := exists_marks i
  unfold elseWord? at h
  dsimp only at h
  split at h
  · rename_i hword
    cases h
    exact ⟨ms, _, _, hms.trans (congrArg (ms ++ ·) (Input.takes_word hword).lexemes), hmarks, rfl, rfl⟩
  · cases h

section
variable {b : Reader (List Stmt)} (hb : Spells b IsBlock)
include hb

theorem spells_alternatives (fuel : Nat) : Spells (alternatives b fuel) fun q ls r t => IsAlternatives q ls r.1 r.2 t := by
  induction fuel with
  | zero =>
    intro i r j h
    cases h
  | succ fuel ih =>
    intro i r j h
    obtain ⟨⟨cond, i₁⟩, hcond, h⟩ := Except.bind_eq_ok.mp h
    obtain ⟨⟨body, i₂⟩, hbody, h⟩ := Except.bind_eq_ok.mp h
    obtain ⟨_, hcs, o, es, c, rfl, ho, he, hc⟩ := spells_condition fuel _ _ _ hcond
    obtain ⟨bs, hbs, hblock⟩ := hb _ _ _ hbody
    have hlexemes : i.lexemes = o :: (es ++ c :: bs) ++ i₂.lexemes := by
      rw [hcs.lexemes, hbs]
      simp
    have hbranch : IsBranch i.pending (o :: (es ++ c :: bs)) (.mk cond body) i₂.pending := by
      rw [hcs.pending]
      exact .mk ho he hc hblock
    dsimp only at h
    split at h
    · cases h
      exact ⟨_, hlexemes, .last hbranch⟩
    · rename_i k helse
      -- An `else` is the front of another condition, or of the last block.
      obtain ⟨ms, w, p, hms, hmarks, hw, hpending⟩ := elseWord?_inv helse
      rw [hms] at hlexemes
      split at h
      · rename_i hif
        obtain ⟨⟨⟨branches, otherwise⟩, j'⟩, hrest, h⟩ := Except.bind_eq_ok.mp h
        cases h
        obtain ⟨rs, hrs, halternatives⟩ := ih _ _ _ hrest
        have hk := Input.takes_word hif
        rw [← hk.pending, hpending] at halternatives
        refine ⟨_, ?_, .cons hbranch hmarks hw (i := ⟨.name "if", k.pos⟩) rfl halternatives⟩
        rw [hlexemes, hk.lexemes, hrs]
        simp
      · obtain ⟨⟨otherwise, j'⟩, hrest, h⟩ := Except.bind_eq_ok.mp h
        cases h
        obtain ⟨rs, hrs, hotherwise⟩ := hb _ _ _ hrest
        rw [hpending] at hotherwise
        refine ⟨_, ?_, .otherwise hbranch hmarks hw hotherwise⟩
        rw [hlexemes, hrs]
        simp

theorem forEach_spells (fuel : Nat) (pos : Option SourcePos) {i j : Input} {s : Stmt}
    (h : forEach b fuel pos i = .ok (s, j)) : ∃ o v l k es c bs n e body, s = .forEach n e body pos ∧
      i.lexemes = o :: v :: l :: k :: (es ++ c :: bs) ++ j.lexemes ∧ IsSymbol .openParen o ∧ IsWord "var" v ∧ IsName n l ∧
      IsWord "in" k ∧ IsExpr .either es e ∧ IsSymbol .closeParen c ∧ IsBlock i.pending bs body j.pending := by
  obtain ⟨i₁, hopen, h⟩ := Except.bind_eq_ok.mp h
  obtain ⟨i₂, hvar, h⟩ := Except.bind_eq_ok.mp h
  obtain ⟨⟨n, i₃⟩, hname, h⟩ := Except.bind_eq_ok.mp h
  obtain ⟨i₄, hin, h⟩ := Except.bind_eq_ok.mp h
  obtain ⟨⟨e, i₅⟩, hexpr, h⟩ := Except.bind_eq_ok.mp h
  obtain ⟨i₆, hclose, h⟩ := Except.bind_eq_ok.mp h
  obtain ⟨⟨body, i₇⟩, hbody, h⟩ := Except.bind_eq_ok.mp h
  cases h
  obtain ⟨_, hl, l, rfl, hn⟩ := spells_name _ _ _ hname
  obtain ⟨es, hes, he⟩ := spells_expr fuel _ _ _ hexpr
  obtain ⟨bs, hbs, hblock⟩ := hb _ _ _ hbody
  have hhead := (Input.takes_expect hopen).trans ((Input.takes_expectWord hvar).trans (hl.trans
    ((Input.takes_expectWord hin).trans (hes.trans (Input.takes_expect hclose)))))
  refine ⟨⟨.symbol .openParen, i.pos⟩, ⟨.name "var", i₁.pos⟩, l, ⟨.name "in", i₃.pos⟩, es, ⟨.symbol .closeParen, i₅.pos⟩, bs, n,
    e, body, rfl, ?_, rfl, rfl, hn, rfl, he, rfl, hhead.pending ▸ hblock⟩
  rw [hhead.lexemes, hbs]
  simp

theorem spells_statement (fuel : Nat) : Spells (statement b fuel) IsStmt := by
  intro i s j h
  obtain ⟨ms, p, w, pos, rest, hlexemes, hmarks, h⟩ := statement_inv h
  rw [statement_word] at h
  dsimp only at h
  rw [hlexemes]
  split at h
  · obtain ⟨_, htakes, _, z, rfl, ⟨text, rfl, l, rfl, hl⟩, hz⟩ := spells_terminated (spells_map spells_string Stmt.write) _ _ _ h
    rw [← htakes.pending, show rest = _ from htakes.lexemes]
    exact ⟨_, by simp, .write hmarks (k := ⟨.name "write", pos⟩) rfl hl hz⟩
  · obtain ⟨_, htakes, es, z, rfl, ⟨e, rfl, he⟩, hz⟩ := spells_terminated (spells_map (spells_expr fuel) fun e => Stmt.emit e p) _ _ _ h
    rw [← htakes.pending, show rest = _ from htakes.lexemes]
    exact ⟨_, by simp, .emit hmarks (k := ⟨.name "emit", pos⟩) rfl he hz⟩
  · obtain ⟨_, htakes, _, z, rfl, ⟨l, a, es, n, e, rfl, rfl, hn, ha, he⟩, hz⟩ :=
      spells_terminated (spells_variableDecl fuel p) _ _ _ h
    rw [← htakes.pending, show rest = _ from htakes.lexemes]
    exact ⟨_, by simp, .var hmarks (k := ⟨.name "var", pos⟩) rfl hn ha he hz⟩
  · obtain ⟨_, htakes, _, z, rfl, ⟨name, rfl, l, rfl, hl⟩, hz⟩ :=
      spells_terminated (spells_map spells_string fun n => Stmt.defineSection ⟨n, pos⟩) _ _ _ h
    rw [← htakes.pending, show rest = _ from htakes.lexemes]
    exact ⟨_, by simp, .defineSection hmarks (k := ⟨.name "define_section", pos⟩) rfl hl hz⟩
  · obtain ⟨⟨⟨branches, otherwise⟩, j'⟩, hread, h⟩ := Except.bind_eq_ok.mp h
    cases h
    obtain ⟨ls, hls, halternatives⟩ := spells_alternatives hb fuel _ _ _ hread
    rw [show rest = _ from hls]
    exact ⟨_, by simp, .ifElse hmarks (k := ⟨.name "if", pos⟩) rfl halternatives⟩
  · obtain ⟨o, v, l, k, es, c, bs, n, e, body, rfl, hls, ho, hv, hn, hk, he, hc, hbody⟩ := forEach_spells hb fuel p h
    rw [show rest = _ from hls]
    exact ⟨_, by simp, .forEach hmarks (k := ⟨.name "foreach", pos⟩) rfl ho hv hn hk he hc hbody⟩
  · cases h

end

/-- Statements, the pragmas behind them, and a closing brace. -/
def Closed (q : Pending) (ls : List Lexeme) (ss : List Stmt) (t : Pending) : Prop :=
  ∃ xs ms c r, ls = xs ++ (ms ++ [c]) ∧ IsStmts q xs ss r ∧ Marks r ms t ∧ IsSymbol .closeBrace c

theorem spells_block {fuel : Nat} (h : Spells (statements fuel) Closed) : Spells (block fuel) IsBlock := by
  intro i ss j hblock
  obtain ⟨i', hopen, hread⟩ := Except.bind_eq_ok.mp hblock
  obtain ⟨ms, hms, hmarks⟩ := exists_marks i
  obtain ⟨_, hls, xs, ms', c, r, rfl, hss, hmarks', hc⟩ := h _ _ _ hread
  have ho := Input.takes_expect hopen
  rw [← ho.pending] at hss
  refine ⟨_, ?_, .mk hmarks (o := ⟨.symbol .openBrace, i.takePragmas.pos⟩) rfl hss hmarks' hc⟩
  rw [hms, ho.lexemes, hls]
  simp

theorem spells_statements (fuel : Nat) : Spells (statements fuel) Closed := by
  induction fuel with
  | zero =>
    intro i ss j h
    cases h
  | succ fuel ih =>
    intro i ss j h
    obtain ⟨ms, hms, hmarks⟩ := exists_marks i
    rw [statements] at h
    dsimp only at h
    split at h
    · rename_i hclose
      cases h
      have hc := Input.takes_next (Input.atSymbol_iff.mp hclose)
      rw [hc.pending] at hmarks
      refine ⟨_, ?_, [], ms, ⟨.symbol .closeBrace, i.takePragmas.pos⟩, _, rfl, .nil, hmarks, rfl⟩
      rw [hms, hc.lexemes]
      simp
    · split at h
      · cases h
      · obtain ⟨⟨s, i₁⟩, hstmt, h⟩ := Except.bind_eq_ok.mp h
        obtain ⟨⟨ss', i₂⟩, hstmts, h⟩ := Except.bind_eq_ok.mp h
        cases h
        -- The pragmas have been taken already, so that none is left to the statement.
        have hread : statement (block fuel) (fuel + 1) i = .ok (s, i₁) := by
          rw [← hstmt]
          unfold statement
          rw [takePragmas_takePragmas]
          rfl
        obtain ⟨ls, hls, hs⟩ := spells_statement (spells_block ih) (fuel + 1) _ _ _ hread
        obtain ⟨_, hrs, xs, ms', c, r, rfl, hss, hmarks', hc⟩ := ih _ _ _ hstmts
        refine ⟨ls ++ (xs ++ (ms' ++ [c])), ?_, ls ++ xs, ms', c, r, ?_, .cons hs hss, hmarks', hc⟩
        · rw [hls, hrs]
          simp
        · simp

/-! ### Members -/

theorem spells_layout (inherited : Bool) (pos : SourcePos) : Unit.Spells (layout inherited pos) fun ls m =>
    ∃ l z key, ls = [l, z] ∧ m = .layout key inherited pos ∧ IsString key l ∧ IsSymbol .semicolon z := by
  intro i m j h
  obtain ⟨⟨key, i₁⟩, hkey, h⟩ := Except.bind_eq_ok.mp h
  obtain ⟨i₂, hz, h⟩ := Except.bind_eq_ok.mp h
  cases h
  obtain ⟨_, htakes, l, rfl, hl⟩ := spells_string _ _ _ hkey
  exact ⟨_, htakes.trans (Input.takes_expect hz), l, _, key, rfl, rfl, hl, rfl⟩

theorem spells_function (fuel : Nat) (template : Option SourcePos) : Unit.Spells (function fuel template) fun ls m =>
    ∃ l o ps a es z n params e, ls = l :: o :: (ps ++ a :: (es ++ [z])) ∧ m = .function ⟨n, params, e, template⟩ ∧
      IsName n l ∧ IsSymbol .openParen o ∧ IsParams ps params ∧ IsSymbol .arrow a ∧ IsExpr .either es e ∧
      IsSymbol .semicolon z := by
  intro i m j h
  obtain ⟨⟨n, i₁⟩, hname, h⟩ := Except.bind_eq_ok.mp h
  obtain ⟨i₂, hopen, h⟩ := Except.bind_eq_ok.mp h
  obtain ⟨⟨params, i₃⟩, hparams, h⟩ := Except.bind_eq_ok.mp h
  obtain ⟨i₄, harrow, h⟩ := Except.bind_eq_ok.mp h
  obtain ⟨⟨e, i₅⟩, hexpr, h⟩ := Except.bind_eq_ok.mp h
  obtain ⟨i₆, hz, h⟩ := Except.bind_eq_ok.mp h
  cases h
  obtain ⟨_, hl, l, rfl, hn⟩ := spells_name _ _ _ hname
  obtain ⟨ps, hps, hp⟩ := spells_params fuel _ _ _ hparams
  obtain ⟨es, hes, he⟩ := spells_expr fuel _ _ _ hexpr
  refine ⟨_, hl.trans ((Input.takes_expect hopen).trans (hps.trans ((Input.takes_expect harrow).trans (hes.trans
    (Input.takes_expect hz))))), l, _, ps, _, es, _, n, params, e, rfl, rfl, hn, rfl, hp, rfl, he, rfl⟩

/-- What is read as a member, together with the pragmas that have been taken before it. -/
theorem member_spells {fuel : Nat} {i j : Input} {m : Member} {q : Pending} {ms : List Lexeme} (hmarks : Marks q ms i.pending)
    (h : member fuel i = .ok (m, j)) : ∃ ls, i.lexemes = ls ++ j.lexemes ∧ IsMember q (ms ++ ls) m j.pending := by
  -- Every member starts with a word, and the word decides how it goes on.
  have hstart : ∃ w pos rest, i = ⟨⟨.name w, pos⟩ :: rest, i.finish, i.pending⟩ := by
    unfold member at h
    dsimp only [Input.takePending] at h
    split at h
    · rename_i w hw
      exact ⟨w, i.pos, i.next.lexemes, Input.takes_next hw⟩
    · cases h
  obtain ⟨w, pos, rest, hi⟩ := hstart
  generalize i.finish = f, i.pending = p at hi hmarks
  subst hi
  rw [member_word] at h
  dsimp only at h ⊢
  split at h
  · obtain ⟨_, htakes, l, z, key, rfl, rfl, hl, hz⟩ := spells_layout _ _ _ _ _ h
    rw [← htakes.pending, show rest = _ from htakes.lexemes]
    exact ⟨_, by simp, .layout hmarks (k := ⟨.name "layout", pos⟩) rfl hl hz⟩
  · obtain ⟨k, hk, h⟩ := Except.bind_eq_ok.mp h
    obtain ⟨_, htakes, l, z, key, rfl, rfl, hl, hz⟩ := spells_layout _ _ _ _ _ h
    have hall := (Input.takes_expectWord hk).trans htakes
    rw [← hall.pending]
    have hm : IsMember q (ms ++ [⟨.name "default", pos⟩, ⟨.name "layout", (⟨rest, f, none⟩ : Input).pos⟩, l, z])
        (.layout key true pos) none := .defaultLayout hmarks rfl rfl hl hz
    exact ⟨_, congrArg (List.cons _) hall.lexemes, hm⟩
  · obtain ⟨_, htakes, l, o, ps, a, es, z, n, params, e, rfl, rfl, hn, ho, hp, ha, he, hz⟩ :=
      spells_function fuel _ _ _ _ h
    rw [← htakes.pending, show rest = _ from htakes.lexemes]
    exact ⟨_, by simp, .function hmarks (k := ⟨.name "function", pos⟩) rfl hn ho hp ha he hz⟩
  · obtain ⟨⟨name, i₁⟩, hname, h⟩ := Except.bind_eq_ok.mp h
    obtain ⟨⟨body, i₂⟩, hbody, h⟩ := Except.bind_eq_ok.mp h
    cases h
    obtain ⟨_, htakes, l, rfl, hl⟩ := spells_string _ _ _ hname
    obtain ⟨bs, hbs, hblock⟩ := spells_block (spells_statements fuel) _ _ _ hbody
    rw [← htakes.pending] at hblock
    rw [show rest = _ from htakes.lexemes, hbs]
    exact ⟨_, by simp, .sectionDecl hmarks (k := ⟨.name "section", pos⟩) rfl hl hblock⟩
  · obtain ⟨⟨body, i₁⟩, hbody, h⟩ := Except.bind_eq_ok.mp h
    cases h
    obtain ⟨bs, hbs, hblock⟩ := spells_block (spells_statements fuel) _ _ _ hbody
    rw [show rest = _ from hbs]
    exact ⟨_, by simp, .execute hmarks (k := ⟨.name "execute", pos⟩) rfl hblock⟩
  · cases h

/-- Members, the pragmas behind them, and a closing brace. -/
def ClosedMembers (q : Pending) (ls : List Lexeme) (members : List Member) (t : Pending) : Prop :=
  ∃ xs ms c r, ls = xs ++ (ms ++ [c]) ∧ IsMembers q xs members r ∧ Marks r ms t ∧ IsSymbol .closeBrace c

theorem spells_members (fuel : Nat) : Spells (members fuel) ClosedMembers := by
  induction fuel with
  | zero =>
    intro i ms j h
    cases h
  | succ fuel ih =>
    intro i members j h
    obtain ⟨ms, hms, hmarks⟩ := exists_marks i
    rw [Unit.members] at h
    dsimp only at h
    split at h
    · rename_i hclose
      cases h
      have hc := Input.takes_next (Input.atSymbol_iff.mp hclose)
      rw [hc.pending] at hmarks
      refine ⟨_, ?_, [], ms, ⟨.symbol .closeBrace, i.takePragmas.pos⟩, _, rfl, .nil, hmarks, rfl⟩
      rw [hms, hc.lexemes]
      simp
    · obtain ⟨⟨m, i₁⟩, hmember, h⟩ := Except.bind_eq_ok.mp h
      obtain ⟨⟨members', i₂⟩, hmembers, h⟩ := Except.bind_eq_ok.mp h
      cases h
      obtain ⟨ls, hls, hm⟩ := member_spells hmarks hmember
      obtain ⟨_, hrs, xs, ms', c, r, rfl, hr, hmarks', hc⟩ := ih _ _ _ hmembers
      refine ⟨ms ++ ls ++ (xs ++ (ms' ++ [c])), ?_, ms ++ ls ++ xs, ms', c, r, ?_, .cons hm hr, hmarks', hc⟩
      · rw [hms, hls, hrs]
        simp
      · simp

/-! ### Units -/

theorem spells_classDecl (fuel : Nat) : Spells (classDecl fuel) IsClass := by
  intro i d j h
  obtain ⟨ps, hps, hmarks⟩ := exists_marks i
  -- The word that may stand before the class.
  obtain ⟨vs, i₀, hvs, hv, h⟩ : ∃ vs i₀, ({ i.takePragmas with pending := none } : Input).Takes vs i₀ ∧ IsVisibility vs ∧
      bareClass fuel i₀ = .ok (d, j) := by
    rw [classDecl_eq] at h
    dsimp only at h
    split at h
    · rename_i hword
      rcases Bool.or_eq_true_iff.mp hword with hword | hword
      · exact ⟨_, _, Input.takes_word hword, .hidden rfl, h⟩
      · exact ⟨_, _, Input.takes_word hword, .visible rfl, h⟩
    · exact ⟨[], _, .refl _, .none, h⟩
  obtain ⟨i₁, hclass, h⟩ := Except.bind_eq_ok.mp h
  obtain ⟨⟨n, i₂⟩, hname, h⟩ := Except.bind_eq_ok.mp h
  obtain ⟨i₃, hcolon, h⟩ := Except.bind_eq_ok.mp h
  obtain ⟨⟨base, i₄⟩, hbase, h⟩ := Except.bind_eq_ok.mp h
  obtain ⟨i₅, hless, h⟩ := Except.bind_eq_ok.mp h
  obtain ⟨⟨model, i₆⟩, hmodel, h⟩ := Except.bind_eq_ok.mp h
  obtain ⟨i₇, hgreater, h⟩ := Except.bind_eq_ok.mp h
  obtain ⟨i₈, hopen, h⟩ := Except.bind_eq_ok.mp h
  obtain ⟨⟨ms, i₉⟩, hmembers, h⟩ := Except.bind_eq_ok.mp h
  cases h
  obtain ⟨_, hl, l, rfl, hn⟩ := spells_name _ _ _ hname
  obtain ⟨bs, hbs, hb⟩ := spells_path fuel _ _ _ hbase
  obtain ⟨ls, hls, hm⟩ := spells_path fuel _ _ _ hmodel
  have hheader := hvs.trans ((Input.takes_expectWord hclass).trans (hl.trans ((Input.takes_expect hcolon).trans
    (hbs.trans ((Input.takes_expect hless).trans (hls.trans ((Input.takes_expect hgreater).trans
      (Input.takes_expect hopen))))))))
  obtain ⟨_, hms, xs, ps', c, r, rfl, hmember, hmarks', hc⟩ := spells_members fuel _ _ _ hmembers
  rw [← hheader.pending] at hmember
  have hword : IsWord "class" ⟨.name "class", i₀.pos⟩ := rfl
  have hopens : IsSymbol .less ⟨.symbol .less, i₄.pos⟩ := rfl
  have hcloses : IsSymbol .greater ⟨.symbol .greater, i₆.pos⟩ := rfl
  have hbrace : IsSymbol .openBrace ⟨.symbol .openBrace, i₇.pos⟩ := rfl
  refine ⟨_, ?_, .mk hmarks hv hword hn (c := ⟨.symbol .colon, i₂.pos⟩) rfl hb hopens hm hcloses hbrace hmember hmarks' hc⟩
  have hlexemes := hheader.lexemes
  dsimp only at hlexemes
  rw [hps, hlexemes, hms]
  simp

/-- Namespaces in use, and the pragmas behind them. -/
theorem spells_usings (fuel : Nat) : Spells (usings fuel) fun q ls ns t =>
    ∃ xs ms r, ls = xs ++ ms ∧ IsUsings q xs ns r ∧ Marks r ms t := by
  induction fuel with
  | zero =>
    intro i ns j h
    cases h
  | succ fuel ih =>
    intro i ns j h
    obtain ⟨ms, hms, hmarks⟩ := exists_marks i
    rw [usings] at h
    dsimp only at h
    split at h
    · rename_i hword
      obtain ⟨⟨n, i₁⟩, hpath, h⟩ := Except.bind_eq_ok.mp h
      obtain ⟨i₂, hz, h⟩ := Except.bind_eq_ok.mp h
      obtain ⟨⟨ns', i₃⟩, hrest, h⟩ := Except.bind_eq_ok.mp h
      cases h
      obtain ⟨ls, hls, hp⟩ := spells_path fuel _ _ _ hpath
      have hline := (Input.takes_word hword).trans (hls.trans (Input.takes_expect hz))
      obtain ⟨_, hrs, xs, ms', r, rfl, hu, hmarks'⟩ := ih _ _ _ hrest
      rw [← hline.pending] at hu
      refine ⟨ms ++ ⟨.name "using", i.takePragmas.pos⟩ :: (ls ++ ⟨.symbol .semicolon, i₁.pos⟩ :: (xs ++ ms')), ?_, _, ms', r, ?_,
        .cons hmarks (k := ⟨.name "using", i.takePragmas.pos⟩) rfl hp (s := ⟨.symbol .semicolon, i₁.pos⟩) rfl hu, hmarks'⟩
      · rw [hms, hline.lexemes, hrs]
        simp
      · simp
    · cases h
      exact ⟨ms, hms, [], ms, _, rfl, .nil, hmarks⟩

theorem spells_space (fuel : Nat) : Unit.Spells (space fuel) IsSpace := by
  intro i s j h
  unfold space at h
  split at h
  · rename_i hword
    obtain ⟨⟨n, i₁⟩, hpath, h⟩ := Except.bind_eq_ok.mp h
    obtain ⟨i₂, hz, h⟩ := Except.bind_eq_ok.mp h
    cases h
    obtain ⟨ls, hls, hp⟩ := spells_path fuel _ _ _ hpath
    exact ⟨_, (Input.takes_word hword).trans (hls.trans (Input.takes_expect hz)), .some rfl hp rfl⟩
  · cases h
    exact ⟨[], .refl _, .none⟩

/-- Pragmas behind the namespaces in use stand before the class. -/
theorem IsClass.after {q r t : Pending} {ms cs : List Lexeme} {d : ClassDecl} (hm : Marks q ms r) (h : IsClass r cs d t) :
    IsClass q (ms ++ cs) d t := by
  cases h with
  | mk hp hv hk hn hc hb hl hmodel hg ho hs hp' he =>
    rw [← List.append_assoc]
    exact .mk (hm.trans hp) hv hk hn hc hb hl hmodel hg ho hs hp' he

/-- What is read as a unit spells it. -/
theorem isUnit_of_ofLexemes {ls : List Lexeme} {t : Tree} (h : Tree.ofLexemes ls = .ok t) : IsUnit ls t := by
  obtain ⟨⟨t', j⟩, hunit, rfl⟩ : ∃ r, unit { lexemes := ls, finish := finishOf ls } = .ok r ∧ r.1 = t := by
    unfold Tree.ofLexemes at h
    cases hunit : unit { lexemes := ls, finish := finishOf ls } with
    | error found =>
      rw [hunit] at h
      cases h
    | ok r =>
      rw [hunit] at h
      exact ⟨r, rfl, Except.ok.inj h⟩
  obtain ⟨ms, hms, hmarks⟩ := exists_marks { lexemes := ls, finish := finishOf ls }
  obtain ⟨⟨space, i₁⟩, hspace, hunit⟩ := Except.bind_eq_ok.mp hunit
  obtain ⟨⟨us, i₂⟩, husings, hunit⟩ := Except.bind_eq_ok.mp hunit
  obtain ⟨⟨d, i₃⟩, hclass, hunit⟩ := Except.bind_eq_ok.mp hunit
  dsimp only at hunit
  split at hunit
  · cases hunit
  rename_i hend
  cases hunit
  obtain ⟨ss, hss, hs⟩ := spells_space _ _ _ _ hspace
  obtain ⟨_, hxs, xs, ms', r, rfl, hu, hmarks'⟩ := spells_usings _ _ _ _ husings
  obtain ⟨cs, hcs, hc⟩ := spells_classDecl _ _ _ _ hclass
  obtain ⟨es, hes, hmarks''⟩ := exists_marks i₃
  -- Nothing but pragmas stands behind the class.
  have hempty : i₃.takePragmas.lexemes = [] := by simpa using hend
  rw [← hss.pending] at hu
  have hall := IsUnit.mk hmarks hs hu (hc.after hmarks') hmarks''
  rw [hempty, List.append_nil] at hes
  dsimp only at hms hxs hcs
  rw [hms, hss.lexemes, hxs, hcs, hes]
  simpa using hall

/-- Exactly the units are read, each as what it spells. -/
theorem ofLexemes_eq_ok_iff {ls : List Lexeme} {t : Tree} : Tree.ofLexemes ls = .ok t ↔ IsUnit ls t :=
  ⟨isUnit_of_ofLexemes, IsUnit.reads⟩

end Marked

end Stencil.Unit
