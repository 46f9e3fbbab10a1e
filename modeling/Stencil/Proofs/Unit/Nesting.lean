import Stencil.Proofs.Unit.Mirror

/-! Brackets among tokens.

An expression closes the brackets it opens and has no semicolon. Of two token lists that close what they open, and that
go on with a token that cannot stand outside brackets, neither goes on where the other ends. So an expression that is
read from embedded code takes all of it. -/

namespace Stencil.Unit

open Markup (Scan Closed Sealed Spot)
open Grammar (Level IsExpr IsArgs IsAtom IsSymbol IsWord IsName IsString)

/-! ### Nesting -/

/-- The closing brackets that are awaited after one more token. No pragma may come and, outside brackets, no semicolon
if code is to be sealed. -/
def nestStep (strict : Bool) : List Char → Token → Option (List Char)
  | _, .pragma _ => none
  | awaited, .symbol .openParen => some (')' :: awaited)
  | awaited, .symbol .openBrace => some ('\x7d' :: awaited)
  | awaited, .symbol .closeParen => if awaited.head? = some ')' then some awaited.tail else none
  | awaited, .symbol .closeBrace => if awaited.head? = some '\x7d' then some awaited.tail else none
  | awaited, .symbol .semicolon => if strict ∧ awaited = [] then none else some awaited
  | awaited, _ => some awaited

/-- The closing brackets that are awaited after more tokens. -/
def nest (strict : Bool) (awaited : List Char) (ls : List Lexeme) : Option (List Char) :=
  ls.foldlM (fun awaited l => nestStep strict awaited l.token) awaited

section
variable {strict : Bool} {st st' : List Char} {l : Lexeme} {ls rs : List Lexeme}

theorem nest_cons : nest strict st (l :: ls) = (nestStep strict st l.token).bind fun st' => nest strict st' ls := rfl

theorem nest_append : nest strict st (ls ++ rs) = (nest strict st ls).bind fun st' => nest strict st' rs := List.foldlM_append

theorem nest_append_of (h : nest strict st ls = some st') : nest strict st (ls ++ rs) = nest strict st' rs := by
  rw [nest_append, h, Option.bind_some]

theorem nest_symbol {s : Symbol} (h : IsSymbol s l) :
    nest strict st (l :: ls) = (nestStep strict st (.symbol s)).bind fun st' => nest strict st' ls := by
  rw [nest_cons, h]

theorem nest_word {w : String} (h : IsWord w l) : nest strict st (l :: ls) = nest strict st ls := by
  rw [nest_cons, h]
  rfl

theorem nest_name {n : Named} (h : IsName n l) : nest strict st (l :: ls) = nest strict st ls :=
  nest_word (congrArg Lexeme.token h)

theorem nest_string {s : String} (h : IsString s l) : nest strict st (l :: ls) = nest strict st ls := by
  rw [nest_cons, h]
  rfl

theorem nest_semicolon (h : IsSymbol .semicolon l) : nest false st (l :: ls) = nest false st ls := nest_symbol h

theorem not_pragma_of_nest (h : nest strict st ls = some st') : ∀ l ∈ ls, Marked.NoPragma l := by
  induction ls generalizing st with
  | nil => exact fun _ h => nomatch h
  | cons l ls ih =>
    obtain ⟨st₁, hstep, h⟩ := Option.bind_eq_some_iff.mp h
    refine List.forall_mem_cons.mpr ⟨fun p hp => ?_, ih h⟩
    have hnone : nestStep strict st l.token = none := by rw [hp, nestStep]
    cases hnone.symm.trans hstep

end

namespace Grammar

mutual

/-- An expression closes the brackets it opens, and none that were open before. -/
theorem IsExpr.nest {strict : Bool} {k : Level} {ls : List Lexeme} {e : Expr} :
    IsExpr k ls e → ∀ st, Unit.nest strict st ls = some st
  | .atom ha, st => by cases ha <;> rfl
  | .parens ho he hc, st => by
    rw [List.cons_append, nest_symbol ho]
    exact (nest_append_of (IsExpr.nest he (')' :: st))).trans (nest_symbol hc)
  | .ofPrimary he, st => IsExpr.nest he st
  | .member he hd hn, st => by
    rw [nest_append_of (IsExpr.nest he st), nest_symbol hd]
    cases hn
    rfl
  | .call he ho ha, st => by
    rw [nest_append_of (IsExpr.nest he st), nest_symbol ho]
    exact IsArgs.nest ha st
  | .ofAccess he, st => IsExpr.nest he st
  | .not hb he, st => by
    rw [nest_symbol hb]
    exact IsExpr.nest he st
  | .ofUnary he, st => IsExpr.nest he st
  | .compare hl hs hr, st => by
    rw [nest_append_of (IsExpr.nest hl st)]
    cases hs with
    | equal hs | unequal hs =>
      rw [nest_symbol hs]
      exact IsExpr.nest hr st
  | .ofEquality he, st => IsExpr.nest he st
  | .both hl hs hr, st => by
    rw [nest_append_of (IsExpr.nest hl st), nest_symbol hs]
    exact IsExpr.nest hr st
  | .ofBoth he, st => IsExpr.nest he st
  | .either hl hs hr, st => by
    rw [nest_append_of (IsExpr.nest hl st), nest_symbol hs]
    exact IsExpr.nest hr st

theorem IsArgs.nest {strict : Bool} {ls : List Lexeme} {es : List Expr} :
    IsArgs ls es → ∀ st, Unit.nest strict (')' :: st) ls = some st
  | .nil hc, st => nest_symbol hc
  | .last he hc, st => (nest_append_of (IsExpr.nest he (')' :: st))).trans (nest_symbol hc)
  | .cons he hc ha, st => by
    rw [nest_append_of (IsExpr.nest he (')' :: st)), nest_symbol hc]
    exact IsArgs.nest ha st

end

theorem IsNames.nest {strict : Bool} {ls : List Lexeme} {ns : List Named} (h : IsNames ls ns) (st : List Char) :
    Unit.nest strict st ls = some st := by
  induction h with
  | one hn => exact nest_name hn
  | cons hn hc _ ih =>
    rw [nest_name hn, nest_symbol hc]
    exact ih

theorem IsParams.nest {strict : Bool} {ls : List Lexeme} {ns : List Named} (h : IsParams ls ns) (st : List Char) :
    Unit.nest strict (')' :: st) ls = some st := by
  cases h with
  | nil hc => exact nest_symbol hc
  | names hs hc => exact (nest_append_of (hs.nest (')' :: st))).trans (nest_symbol hc)

mutual

/-- A statement closes the brackets it opens, and none that were open before. -/
theorem IsStmt.nest {ls : List Lexeme} {s : Stmt} : IsStmt ls s → ∀ st, Unit.nest false st ls = some st
  | .write hk hl hs, st | .defineSection hk hl hs, st => by
    rw [nest_word hk, nest_string hl]
    exact nest_semicolon hs
  | .emit hk he hs, st => by
    rw [List.cons_append, nest_word hk, nest_append_of (he.nest st)]
    exact nest_semicolon hs
  | .var hk hn ha he hs, st => by
    rw [List.cons_append, List.cons_append, List.cons_append, nest_word hk, nest_name hn, nest_symbol ha]
    exact (nest_append_of (he.nest st)).trans (nest_semicolon hs)
  | .ifElse hk hb, st => by
    rw [nest_word hk]
    exact IsAlternatives.nest hb st
  | .forEach hk ho hv hn hi he hc hb, st => by
    simp only [List.cons_append]
    rw [nest_word hk, nest_symbol ho, nestStep, Option.bind_some, nest_word hv, nest_name hn, nest_word hi,
      nest_append_of (he.nest (')' :: st)), nest_symbol hc]
    exact IsBlock.nest hb st

theorem IsAlternatives.nest {ls : List Lexeme} {bs : List Branch} {otherwise : Option (List Stmt)} :
    IsAlternatives ls bs otherwise → ∀ st, Unit.nest false st ls = some st
  | .last hb, st => IsBranch.nest hb st
  | .otherwise hb hk ho, st => by
    rw [nest_append_of (IsBranch.nest hb st), nest_word hk]
    exact IsBlock.nest ho st
  | .cons hb hk hi ha, st => by
    rw [nest_append_of (IsBranch.nest hb st), nest_word hk, nest_word hi]
    exact IsAlternatives.nest ha st

theorem IsBranch.nest {ls : List Lexeme} {b : Branch} : IsBranch ls b → ∀ st, Unit.nest false st ls = some st
  | .mk ho he hc hb, st => by
    rw [List.cons_append, nest_symbol ho, nestStep, Option.bind_some, nest_append_of (he.nest (')' :: st)), nest_symbol hc]
    exact IsBlock.nest hb st

theorem IsBlock.nest {ls : List Lexeme} {ss : List Stmt} : IsBlock ls ss → ∀ st, Unit.nest false st ls = some st
  | .mk ho hs hc, st => by
    rw [List.cons_append, nest_symbol ho, nestStep, Option.bind_some, nest_append_of (IsStmts.nest hs _)]
    exact nest_symbol hc

theorem IsStmts.nest {ls : List Lexeme} {ss : List Stmt} : IsStmts ls ss → ∀ st, Unit.nest false st ls = some st
  | .nil, _ => rfl
  | .cons hs hr, st => (nest_append_of (IsStmt.nest hs st)).trans (IsStmts.nest hr st)

end

theorem IsMember.nest {ls : List Lexeme} {m : Member} (h : IsMember ls m) (st : List Char) :
    Unit.nest false st ls = some st := by
  cases h with
  | layout hk hl hs =>
    rw [nest_word hk, nest_string hl]
    exact nest_semicolon hs
  | defaultLayout hd hk hl hs =>
    rw [nest_word hd, nest_word hk, nest_string hl]
    exact nest_semicolon hs
  | function hk hn ho hp ha he hs =>
    simp only [List.cons_append, List.append_assoc]
    rw [nest_word hk, nest_name hn, nest_symbol ho, nestStep, Option.bind_some, nest_append_of (hp.nest st), nest_symbol ha]
    exact (nest_append_of (he.nest st)).trans (nest_semicolon hs)
  | sectionDecl hk hl hb =>
    rw [nest_word hk, nest_string hl]
    exact hb.nest st
  | execute hk hb =>
    rw [nest_word hk]
    exact hb.nest st

/-- The members of a class close the brackets they open, and none that were open before. -/
theorem IsMembers.nest {ls : List Lexeme} {ms : List Member} (h : IsMembers ls ms) (st : List Char) :
    Unit.nest false st ls = some st := by
  induction h with
  | nil => rfl
  | cons hm _ ih => exact (nest_append_of (hm.nest st)).trans ih

end Grammar

/-- Two token lists that close what they open end at the same token, if neither can go on with the token that follows
it. -/
theorem eq_of_nest {strict : Bool} {ls rs us vs : List Lexeme} {x y : Lexeme} (hl : nest strict [] ls = some [])
    (hr : nest strict [] rs = some []) (hx : nestStep strict [] x.token = none) (hy : nestStep strict [] y.token = none)
    (h : ls ++ x :: us = rs ++ y :: vs) : ls = rs ∧ x :: us = y :: vs := by
  have hends : ∀ {ls ws : List Lexeme} {x : Lexeme}, nest strict [] ls = some [] → nest strict [] (ls ++ x :: ws) = some [] →
      nestStep strict [] x.token = none → False := by
    intro ls ws x hl hall hx
    rw [nest_append_of hl, nest_cons, hx] at hall
    cases hall
  rcases List.append_eq_append_iff.mp h with ⟨ws, rfl, hws⟩ | ⟨ws, rfl, hws⟩
  · cases ws with
    | nil => exact ⟨(List.append_nil _).symm, hws⟩
    | cons w ws =>
      cases hws
      exact (hends hl hr hx).elim
  · cases ws with
    | nil => exact ⟨List.append_nil _, hws.symm⟩
    | cons w ws =>
      cases hws
      exact (hends hr hl hy).elim

/-! ### Closed code gives tokens that close what they open -/

section
variable {strict : Bool} {x : Char} {cs rest awaited : List Char} {t : Token} {s : Scan}

/-- A semicolon alone tells sealed code from other code. -/
theorem nestStep_strict (h : nestStep false awaited t = some cs) (hs : strict = true → t = .symbol .semicolon → awaited ≠ []) :
    nestStep strict awaited t = some cs := by
  cases strict with
  | false => exact h
  | true =>
    by_cases ht : t = .symbol .semicolon
    · subst ht
      rw [nestStep, if_neg fun hn => hs rfl rfl hn.2]
      exact h
    · rw [← h]
      cases t with
      | symbol s =>
        cases s with
        | semicolon => exact absurd rfl ht
        | _ => rfl
      | _ => rfl

/-- A literal opens no bracket. -/
theorem after?_takeLiteral? {body : List Char} (h : takeLiteral? cs = some (body, rest))
    (hs : Scan.after? ⟨awaited, .literal⟩ body = some s) : s = ⟨awaited, .code⟩ := by
  have htakes := TakesLiteral.of_takeLiteral? h
  clear h
  induction htakes with
  | quote =>
    cases hs
    rfl
  | escape _ _ ih => exact ih hs
  | plain hn hq hb _ ih =>
    rw [Scan.after?_cons, (Scan.Step.inside hb hq hn).step?, Option.bind_some] at hs
    exact ih hs

theorem isPlain_of_mem_takeNumber {c : Char} (h : c ∈ takeNumber cs) : Markup.IsPlain c := by
  rcases mem_takeNumber h with h | rfl | rfl
  · exact Markup.isPlain_of (p := Char.isDigit) (by decide) h
  · decide
  · decide

theorem nestStep_symbol {y : Symbol} (h : Scan.after? ⟨awaited, .code⟩ y.text.toList = some s) :
    s.spot = .code ∧ nestStep false awaited (.symbol y) = some s.awaited := by
  have hplain : (∀ c ∈ y.text.toList, Markup.IsPlain c) → s = ⟨awaited, .code⟩ := fun hall =>
    Option.some.inj (h.symm.trans (Scan.after?_plain hall awaited))
  have hclose : ∀ e, Scan.after? ⟨awaited, .code⟩ [e] = some s → Markup.isCloser e = true →
      s.spot = .code ∧ awaited = e :: s.awaited := by
    intro e he hcloser
    obtain ⟨t, ht, hend⟩ := Option.bind_eq_some_iff.mp he
    cases hend
    cases Scan.Step.of_step? ht with
    | closes => exact ⟨rfl, rfl⟩
    | quote => exact absurd hcloser (by decide)
    | opens ho => exact absurd ((Markup.closerOf?_eq_none hcloser).symm.trans ho) nofun
    | plain hp => exact absurd (hp.2.2.symm.trans hcloser) Bool.false_ne_true
  cases y with
  | openParen | openBrace =>
    cases h
    exact ⟨rfl, rfl⟩
  | closeParen | closeBrace =>
    obtain ⟨hspot, hawaited⟩ := hclose _ h rfl
    rw [hawaited]
    exact ⟨hspot, rfl⟩
  | _ =>
    cases hplain (List.all_iff_forall_prop.mp (by decide))
    exact ⟨rfl, rfl⟩

/-- A token opens and closes what its text does. -/
theorem FirstToken.nest {lex : List Char} (h : FirstToken x cs t lex rest) (hs : Scan.after? ⟨awaited, .code⟩ lex = some s) :
    s.spot = .code ∧ nestStep false awaited t = some s.awaited := by
  have hplain : (∀ c ∈ lex, Markup.IsPlain c) → nestStep false awaited t = some awaited →
      s.spot = .code ∧ nestStep false awaited t = some s.awaited := by
    intro hall ht
    cases hs.symm.trans (Scan.after?_plain hall awaited)
    exact ⟨rfl, ht⟩
  cases h with
  | name _ =>
    exact hplain (fun c hc => Markup.isPlain_of_isNameChar (List.all_eq_true.mp List.all_takeWhile _ hc)) rfl
  | @literal body _ _ _ hlit _ =>
    have hliteral : Scan.after? ⟨awaited, .literal⟩ body = some s := hs
    cases after?_takeLiteral? hlit hliteral
    exact ⟨rfl, rfl⟩
  | number _ _ _ _ => exact hplain (fun c hc => isPlain_of_mem_takeNumber hc) rfl
  | symbol _ _ _ _ => exact nestStep_symbol hs

theorem FirstToken.of_semicolon {lex : List Char} (h : FirstToken x cs (.symbol .semicolon) lex rest) : lex = [';'] := by
  cases h
  rfl

/-- The tokens of tidy code open and close what the code does. -/
theorem nest_of_tokens? {ls : List Lexeme} (ht : tokens? false cs = some (ls.map (·.token))) (htidy : Tidy cs)
    (hs : Scan.after? ⟨awaited, .code⟩ cs = some s)
    (hsealed : strict = true → ∀ u v, cs = u ++ ';' :: v → Scan.after? ⟨awaited, .code⟩ u ≠ some {}) :
    nest strict awaited ls = some s.awaited := by
  have hlexes := lexes_of_tokens? ht
  clear ht
  generalize hb : false = b at hlexes
  generalize hts : ls.map (·.token) = ts at hlexes
  -- What is read at the front leaves code that is tidy, and as sealed as the whole of it.
  have hrest : ∀ {cs lex rest awaited awaited'}, cs = lex ++ rest → Tidy cs → Scan.after? ⟨awaited, .code⟩ cs = some s →
      (strict = true → ∀ u v, cs = u ++ ';' :: v → Scan.after? ⟨awaited, .code⟩ u ≠ some {}) →
      Scan.after? ⟨awaited, .code⟩ lex = some ⟨awaited', .code⟩ →
        Tidy rest ∧ Scan.after? ⟨awaited', .code⟩ rest = some s ∧
          (strict = true → ∀ u v, rest = u ++ ';' :: v → Scan.after? ⟨awaited', .code⟩ u ≠ some {}) := by
    rintro _ lex rest awaited awaited' rfl htidy hs hsealed hlex
    have hspot : Spot.code.after lex = .code := (spot_of_after? hlex).symm
    rw [Scan.after?_append_of hlex] at hs
    refine ⟨htidy.rest hspot, hs, fun hstrict u v huv hu => ?_⟩
    refine hsealed hstrict (lex ++ u) v (by rw [huv, List.append_assoc]) ?_
    rw [Scan.after?_append_of hlex, hu]
  induction hlexes generalizing ls awaited with
  | nil =>
    cases hs
    cases List.map_eq_nil_iff.mp hts
    rfl
  | newline => exact absurd List.mem_cons_self htidy.line
  | @blank _ x cs _ hblank _ _ ih =>
    have hplain : Scan.after? ⟨awaited, .code⟩ [x] = some ⟨awaited, .code⟩ :=
      Scan.after?_plain (fun c hc => List.mem_singleton.mp hc ▸ Markup.isPlain_of_isBlank hblank) awaited
    obtain ⟨htidy', hs', hsealed'⟩ := @hrest _ [x] cs _ _ rfl htidy hs hsealed hplain
    exact ih htidy' hs' hsealed' hb hts
  | comment => cases htidy.comment
  | pragma => cases hb
  | @token _ x cs rest t ts _ _ _ htoken _ ih =>
    obtain ⟨l, ls, rfl, rfl, rfl⟩ := List.map_eq_cons_iff.mp hts
    obtain ⟨lex, hfirst⟩ := FirstToken.of_token? htoken
    obtain ⟨⟨awaited', spot⟩, hlex, -⟩ := Scan.after?_eq_some_of_append (hfirst.split ▸ hs)
    obtain ⟨hspot, hstep⟩ := hfirst.nest hlex
    cases hspot
    have hstrict : nestStep strict awaited l.token = some awaited' := by
      refine nestStep_strict hstep fun hstrict ht hnil => ?_
      rw [ht] at hfirst
      refine hsealed hstrict [] rest ?_ (by rw [hnil]; rfl)
      rw [hfirst.split, hfirst.of_semicolon]
      rfl
    obtain ⟨htidy', hs', hsealed'⟩ := hrest hfirst.split htidy hs hsealed hlex
    rw [nest_cons, hstrict, Option.bind_some]
    exact ih htidy' hs' hsealed' rfl rfl

end

/-! ### Code on one line -/

section
variable {cs : List Char} {s t : Scan}

/-- Code on one line opens and closes what the code does. -/
theorem after?_oneLine (h : s.after? cs = some t) : s.after? (cs.map Line.oneLine) = some t := by
  induction cs generalizing s with
  | nil => exact h
  | cons c cs ih =>
    obtain ⟨u, hu, h⟩ := Option.bind_eq_some_iff.mp h
    have hstep : s.step? (Line.oneLine c) = some u := by
      by_cases hc : NoBreak c
      · rw [oneLine_of_noBreak hc]
        exact hu
      · have hspace : Line.oneLine c = ' ' := by
          rw [Line.oneLine, if_pos (by simpa [NoBreak, or_iff_not_imp_left] using hc)]
        have hbreak : c = '\r' ∨ c = '\n' := by simpa [NoBreak, or_iff_not_imp_left] using hc
        rw [hspace]
        cases Scan.Step.of_step? hu with
        | plain => exact (Scan.Step.plain (by decide)).step?
        | inside => exact (Scan.Step.inside (by decide) (by decide) (by decide)).step?
        | escaped => rfl
        | quote | backslash | unquote => rcases hbreak with h | h <;> cases h
        | opens ho => rcases hbreak with rfl | rfl <;> cases ho
        | closes he => rcases hbreak with rfl | rfl <;> cases he
    rw [List.map_cons, Scan.after?_cons, hstep, Option.bind_some]
    exact ih h

/-- The tokens of closed code, on one line, close what they open. They have no semicolon outside brackets if the code
has none. -/
theorem nest_of_closed {strict : Bool} {ls : List Lexeme} (hclosed : Closed cs) (hcomment : hasComment .code cs = false)
    (hsealed : strict = true → Sealed cs) (ht : tokens? false (cs.map Line.oneLine) = some (ls.map (·.token))) :
    nest strict [] ls = some [] := by
  refine nest_of_tokens? ht (tidy_oneLine hclosed hcomment) (after?_oneLine hclosed) fun hstrict u v huv hu => ?_
  obtain ⟨a, b, rfl, rfl, hb⟩ := List.map_eq_append_iff.mp huv
  obtain ⟨c, v', rfl, hc, rfl⟩ := List.map_eq_cons_iff.mp hb
  have hsemi : c = ';' := by
    by_cases hbreak : NoBreak c
    · rw [← oneLine_of_noBreak hbreak, hc]
    · rw [Line.oneLine, if_pos (by simpa [NoBreak, or_iff_not_imp_left] using hbreak)] at hc
      cases hc
  obtain ⟨t, ha, -⟩ := Scan.after?_eq_some_of_append hclosed
  cases (after?_oneLine ha).symm.trans hu
  exact hsealed hstrict a v' (hsemi ▸ rfl) ha

end

end Stencil.Unit
