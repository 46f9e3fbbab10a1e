import Stencil.Proofs.Unit.Generation

/-! Embedded code stays where it is embedded.

A unit that is read has one statement for each node of its template, as long as no code has a comment and no
expression that is written has a semicolon outside its brackets. What the reader takes as an expression closes what it
opens, and so does the code; as neither can go on with the token behind the code, they are the same. -/

namespace Stencil.Unit

open Markup (Node Fragment Document Closed Sealed)
open Grammar (IsSymbol IsWord IsExpr)
open Marked (IsStmt IsStmts IsBlock IsBranch IsMember IsMembers Marks NoElse)

/-- The tokens that the code has in a unit, where it stands on one line, spell the expression. -/
def SpelledInUnit (code : List Char) (e : Expr) : Prop :=
  ∃ ls, (tokens? false (code.map Line.oneLine)).Of ls ∧ IsExpr .either ls e

/-- The code closes what it opens and has no comment. -/
structure Enclosed (f : Fragment) : Prop where
  closed : Closed f.text
  comment : hasComment .code f.text = false

mutual

/-- The code of the expressions that a node writes. -/
def written : Node → List String
  | .text _ _ | .var _ _ _ => []
  | .expr code _ => [code]
  | .ifElse branches none => writtenBranches branches
  | .ifElse branches (some body) => writtenBranches branches ++ writtenAll body
  | .forEach _ _ _ body | .sectionDef _ _ body => writtenAll body

/-- The code of the expressions that nodes write. -/
def writtenAll : List Node → List String
  | [] => []
  | n :: ns => written n ++ writtenAll ns

/-- The code of the expressions that alternatives write. -/
def writtenBranches : List Markup.Branch → List String
  | [] => []
  | .mk _ _ body :: bs => writtenAll body ++ writtenBranches bs

end

/-! ### What is read as an expression -/

section
variable {pragmas strict : Bool} {fuel : Nat} {q : Option SourcePos} {l : Lexeme} {cs ls rest : List Lexeme} {f : SourcePos}
  {e : Expr} {i j : Input} {s : Symbol}

/-- The reader of expressions takes all of the code. -/
theorem isExpr_of_read (hl : IsSymbol s l) (hs : nestStep strict [] (.symbol s) = none) (hcs : nest strict [] cs = some [])
    (he : expr fuel ⟨cs ++ l :: rest, f, q⟩ = .ok (e, i)) (hi : i.expect s = .ok j) :
    IsExpr .either cs e ∧ j = ⟨rest, f, q⟩ := by
  obtain ⟨us, htakes, hus⟩ := spells_expr _ _ _ _ he
  obtain ⟨hpeek, rfl⟩ := Input.expect_eq_ok.mp hi
  obtain ⟨lexemes, finish, pending⟩ := i
  cases lexemes with
  | nil => cases hpeek
  | cons y vs =>
    have hy : y.token = .symbol s := Option.some.inj hpeek
    injection htakes with hlexemes hfinish hpending
    obtain ⟨rfl, hrest⟩ := eq_of_nest hcs (hus.nest []) (hl ▸ hs) (hy ▸ hs) hlexemes
    cases hrest
    cases hfinish
    cases hpending
    exact ⟨hus, rfl⟩

/-- Code whose tokens are an expression at some places is an expression wherever it stands. -/
theorem yields_of_isExpr {g : Fragment} (hg : (tokens? false (g.text.map Line.oneLine)).Of cs) (he : IsExpr .either cs e) :
    Yields SpelledInUnit g := by
  intro ls hls
  have hsame : SameTokens ls cs := Option.some.inj (hls.symm.trans hg)
  obtain ⟨e', he', -⟩ := he.relocate hsame
  exact ⟨e', he', ls, hls, he'⟩

theorem Enclosed.yields (strict : Bool) {g : Fragment} (hg : Enclosed g) (hsealed : strict = true → Sealed g.text)
    (hcut : (tokens? false (g.text.map Line.oneLine)).Of cs) (hl : IsSymbol s l)
    (hs : nestStep strict [] (.symbol s) = none) (he : expr fuel ⟨cs ++ l :: rest, f, q⟩ = .ok (e, i))
    (hi : i.expect s = .ok j) : Yields SpelledInUnit g ∧ j = ⟨rest, f, q⟩ := by
  obtain ⟨hexpr, hj⟩ := isExpr_of_read hl hs (nest_of_closed hg.closed hg.comment hsealed hcut) he hi
  exact ⟨yields_of_isExpr hcut hexpr, hj⟩

/-! ### What is read as a statement -/

theorem terminated_inv {α : Type} {read : Reader α} {a : α} (h : terminated read i = .ok (a, j)) :
    ∃ k, read i = .ok (a, k) ∧ k.expect .semicolon = .ok j := by
  obtain ⟨⟨b, k⟩, hread, h⟩ := Except.bind_eq_ok.mp h
  obtain ⟨m, hm, h⟩ := Except.bind_eq_ok.mp h
  cases h
  exact ⟨k, hread, hm⟩

theorem condition_inv (h : condition fuel ⟨l :: rest, f, q⟩ = .ok (e, j)) (hl : IsSymbol .openParen l) :
    ∃ k, expr fuel ⟨rest, f, q⟩ = .ok (e, k) ∧ k.expect .closeParen = .ok j := by
  rw [condition, Input.expect_cons hl] at h
  change (expr fuel ⟨rest, f, q⟩ >>= fun r => r.2.expect .closeParen >>= fun k => pure (r.1, k)) = .ok (e, j) at h
  obtain ⟨⟨e', k⟩, he, h⟩ := Except.bind_eq_ok.mp h
  obtain ⟨m, hm, h⟩ := Except.bind_eq_ok.mp h
  cases h
  exact ⟨k, he, hm⟩

theorem variableDecl_inv {n : String} {p : SourcePos} {s : Stmt}
    (h : variableDecl fuel q ⟨⟨.name n, p⟩ :: l :: rest, f, none⟩ = .ok (s, j)) (hl : IsSymbol .assign l) :
    ∃ e, expr fuel ⟨rest, f, none⟩ = .ok (e, j) := by
  change (Input.expect .assign ⟨l :: rest, f, none⟩ >>= _) = _ at h
  rw [Input.expect_cons hl] at h
  change (expr fuel ⟨rest, f, none⟩ >>= _) = _ at h
  obtain ⟨⟨e, k⟩, he, h⟩ := Except.bind_eq_ok.mp h
  cases h
  exact ⟨e, he⟩

theorem forEach_inv {b : Reader (List Stmt)} {o v n : Lexeme} {name : String} {p : SourcePos} {s : Stmt}
    (h : forEach b fuel q ⟨o :: v :: ⟨.name name, p⟩ :: n :: rest, f, none⟩ = .ok (s, j)) (ho : IsSymbol .openParen o)
    (hv : IsWord "var" v) (hn : IsWord "in" n) :
    ∃ e k m r, expr fuel ⟨rest, f, none⟩ = .ok (e, k) ∧ k.expect .closeParen = .ok m ∧ b m = .ok r := by
  rw [forEach, Input.expect_cons ho] at h
  change (Input.expectWord "var" ⟨v :: ⟨.name name, p⟩ :: n :: rest, f, none⟩ >>= _) = _ at h
  rw [Marked.expectWord_cons hv] at h
  change (Input.expectWord "in" ⟨n :: rest, f, none⟩ >>= _) = _ at h
  rw [Marked.expectWord_cons hn] at h
  change (expr fuel ⟨rest, f, none⟩ >>= _) = _ at h
  obtain ⟨⟨e, k⟩, he, h⟩ := Except.bind_eq_ok.mp h
  obtain ⟨m, hm, h⟩ := Except.bind_eq_ok.mp h
  obtain ⟨r, hr, -⟩ := Except.bind_eq_ok.mp h
  exact ⟨e, k, m, r, he, hm, hr⟩

/-- An alternative is read as its condition and its block. Behind an `else` comes the block of all other cases, or, if an
`if` follows it, the next alternative. -/
theorem alternatives_inv {b : Reader (List Stmt)} {a : (List Branch × Option (List Stmt)) × Input}
    (h : alternatives b (fuel + 1) ⟨l :: rest, f, q⟩ = .ok a) (hl : IsSymbol .openParen l) :
    ∃ e k m ss n, expr fuel ⟨rest, f, q⟩ = .ok (e, k) ∧ k.expect .closeParen = .ok m ∧ b m = .ok (ss, n) ∧
      ∀ i, elseWord? n = some i → (i.atWord "if" = true → ∃ a', alternatives b fuel i.next = .ok a') ∧
        (i.atWord "if" = false → ∃ r, b i = .ok r) := by
  rw [alternatives] at h
  obtain ⟨⟨e, m⟩, hcond, h⟩ := Except.bind_eq_ok.mp h
  obtain ⟨k, he, hm⟩ := condition_inv hcond hl
  obtain ⟨⟨ss, n⟩, hblock, h⟩ := Except.bind_eq_ok.mp h
  refine ⟨e, k, m, ss, n, he, hm, hblock, fun i helse => ?_⟩
  dsimp only at h
  rw [helse] at h
  dsimp only at h
  constructor
  · intro hif
    rw [hif, if_pos rfl] at h
    obtain ⟨a', ha, -⟩ := Except.bind_eq_ok.mp h
    exact ⟨a', ha⟩
  · intro hif
    rw [hif, if_neg Bool.false_ne_true] at h
    obtain ⟨r, hr, -⟩ := Except.bind_eq_ok.mp h
    exact ⟨r, hr⟩

/-- A block is read as the statements between its braces. -/
theorem block_cons {F : Nat} (ho : IsSymbol .openBrace l) : block F ⟨l :: rest, f, q⟩ = statements F ⟨rest, f, q⟩ := by
  rw [block, Marked.takePragmas_noPragma (Marked.noPragma_symbol ho), Input.expect_cons ho]
  rfl

theorem statement_takePragmas {b : Reader (List Stmt)} (i : Input) : statement b fuel i.takePragmas = statement b fuel i := by
  unfold statement
  rw [Marked.takePragmas_takePragmas]

/-- Statements are read one after another. -/
theorem statements_inv {F : Nat} {ss : List Stmt} (h : statements F i = .ok (ss, j))
    (hclose : i.takePragmas.atSymbol .closeBrace = false) :
    ∃ F' s k ss', F = F' + 1 ∧ statement (block F') F i = .ok (s, k) ∧ statements F' k = .ok (ss', j) := by
  cases F with
  | zero => cases h
  | succ F =>
    rw [statements] at h
    dsimp only at h
    rw [hclose, if_neg Bool.false_ne_true] at h
    split at h
    · cases h
    · obtain ⟨⟨s, k⟩, hs, h⟩ := Except.bind_eq_ok.mp h
      obtain ⟨⟨ss', m⟩, hss, h⟩ := Except.bind_eq_ok.mp h
      cases h
      exact ⟨F, s, k, ss', rfl, (statement_takePragmas i).symm.trans hs, hss⟩

/-- The tokens of alternatives start with their pragma and their keyword. -/
theorem branchesCut_starts {bs : List Markup.Branch} {start : Cut} (hbs : bs ≠ []) (h : (branchesCut pragmas start bs).Of ls) :
    ∃ ms ks rs r, ls = ms ++ (ks ++ rs) ∧ Marks none ms r ∧ start.Of ks := by
  cases bs with
  | nil => exact absurd rfl hbs
  | cons b bs =>
    obtain ⟨cond, pos, body⟩ := b
    obtain ⟨ms, _, rfl, hm, h⟩ := of_mark h
    obtain ⟨ks, rs, rfl, hk, h⟩ := of_append h
    exact ⟨ms, ks, rs, _, rfl, hm, hk⟩

/-- The tokens of a node start with its pragma and a keyword. -/
theorem nodeCut_starts {top : Bool} {n : Node} (hp : n.Proper top) (h : (nodeCut pragmas n).Of ls) :
    ∃ ms r k w rs, ls = ms ++ k :: rs ∧ Marks none ms r ∧ IsWord w k ∧ (w == "else") = false := by
  cases n with
  | text text pos =>
    obtain ⟨k, rs, rfl, hk, h⟩ := of_word h
    exact ⟨[], _, k, _, rs, rfl, .nil, hk, rfl⟩
  | sectionDef name pos body =>
    obtain ⟨k, rs, rfl, hk, h⟩ := of_word h
    exact ⟨[], _, k, _, rs, rfl, .nil, hk, rfl⟩
  | expr code pos | var name code pos | forEach var source pos body =>
    obtain ⟨ms, _, rfl, hm, h⟩ := of_mark h
    obtain ⟨k, rs, rfl, hk, h⟩ := of_word h
    exact ⟨ms, _, k, _, rs, rfl, hm, hk, rfl⟩
  | ifElse branches otherwise =>
    have hbranches : ∃ us vs, ls = us ++ vs ∧ (branchesCut pragmas (word "if") branches).Of us := by
      cases otherwise with
      | none => exact ⟨ls, [], (List.append_nil _).symm, h⟩
      | some body =>
        obtain ⟨us, vs, rfl, hu, -⟩ := of_append h
        exact ⟨us, vs, rfl, hu⟩
    have hne : branches ≠ [] := by
      cases otherwise <;> exact hp.1
    obtain ⟨us, vs, rfl, hu⟩ := hbranches
    obtain ⟨ms, ks, rs, r, rfl, hm, hk⟩ := branchesCut_starts hne hu
    obtain ⟨k, rfl, hif⟩ := of_one hk
    exact ⟨ms, r, k, "if", rs ++ vs, by simp, hm, hif, rfl⟩

theorem nodesCut_noElse {top : Bool} {ns : List Node} (hp : Node.ProperAll top ns) (h : (nodesCut pragmas ns).Of ls)
    (hl : IsSymbol .closeBrace l) : NoElse (ls ++ l :: rest) := by
  cases ns with
  | nil =>
    cases of_nil h
    exact Marked.noElse_symbol hl
  | cons n ns =>
    obtain ⟨us, vs, rfl, hu, -⟩ := of_append h
    obtain ⟨ms, r, k, w, rs, rfl, hm, hk, hw⟩ := nodeCut_starts hp.1 hu
    rw [List.append_assoc, List.append_assoc]
    exact Marked.noElse_marks hm.exists (Marked.noElse_word hk hw)

/-- What stands between the braces is read as statements. -/
theorem braces_inv {c : Cut} {F : Nat} {r : List Stmt × Input} (h : (bracesCut c).Of ls)
    (hread : block F ⟨ls ++ rest, f, q⟩ = .ok r) : ∃ us e, us.length < ls.length ∧ c.Of us ∧ IsSymbol .closeBrace e ∧
      statements F ⟨us ++ e :: rest, f, q⟩ = .ok r := by
  obtain ⟨o, _, rfl, ho, h⟩ := of_sym h
  obtain ⟨us, _, rfl, hu, h⟩ := of_append h
  obtain ⟨e, rfl, he⟩ := of_lastSym h
  rw [List.cons_append, block_cons ho, List.append_assoc] at hread
  exact ⟨us, e, by rw [List.length_cons, List.length_append]; omega, hu, he, hread⟩

/-- Inside another statement, no section is declared. -/
theorem mem_codeOfAll {ns : List Node} (hp : Node.ProperAll false ns) {g : Fragment} (h : g ∈ Node.fragmentsAll ns) :
    g ∈ codeOfAll ns := by
  induction ns with
  | nil => exact h
  | cons n ns ih =>
    refine List.mem_append.mpr ((List.mem_append.mp h).imp (fun hn => ?_) (ih hp.2))
    cases n with
    | sectionDef => exact absurd hp.1.1 Bool.false_ne_true
    | text | expr | var | ifElse | forEach => exact hn

/-! The code of a node that has no other nodes in it, or of its head, is an expression wherever it stands. -/

theorem expr_yields {code : String} {pos : SourcePos} {b : Reader (List Stmt)} {s : Stmt} (hg : Enclosed ⟨code.toList, pos⟩)
    (hw : Sealed code.toList) (h : (nodeCut pragmas (.expr code pos)).Of ls)
    (hread : statement b fuel ⟨ls ++ rest, f, none⟩ = .ok (s, i)) : Yields SpelledInUnit ⟨code.toList, pos⟩ := by
  obtain ⟨ms, k, cs, l, rfl, hm, hk, hc, hl⟩ := of_expr h
  rw [List.append_assoc, List.cons_append, Marked.statement_marks hm hk, Marked.statement_word, List.append_assoc] at hread
  obtain ⟨j, hemit, hend⟩ := terminated_inv hread
  obtain ⟨⟨e, j'⟩, he, hret⟩ := Except.bind_eq_ok.mp hemit
  cases hret
  exact (hg.yields true (fun _ => hw) hc hl (by decide) he hend).1

theorem var_yields {name code : String} {pos : SourcePos} {b : Reader (List Stmt)} {s : Stmt}
    (hg : Enclosed ⟨code.toList, pos⟩) (hw : Sealed code.toList) (h : (nodeCut pragmas (.var name code pos)).Of ls)
    (hread : statement b fuel ⟨ls ++ rest, f, none⟩ = .ok (s, i)) : Yields SpelledInUnit ⟨code.toList, pos⟩ := by
  obtain ⟨ms, k, p, a, cs, l, rfl, hm, hk, ha, hc, hl⟩ := of_var h
  rw [List.append_assoc, List.cons_append, Marked.statement_marks hm hk, Marked.statement_word, List.cons_append,
    List.cons_append, List.append_assoc] at hread
  obtain ⟨j, hvar, hend⟩ := terminated_inv hread
  obtain ⟨e, he⟩ := variableDecl_inv hvar ha
  exact (hg.yields true (fun _ => hw) hc hl (by decide) he hend).1

/-- What a loop walks through is an expression, and the tokens behind it are read as a block. -/
theorem forEach_yields {var source : String} {pos : SourcePos} {body : List Node} {b : Reader (List Stmt)} {s : Stmt}
    (hg : Enclosed ⟨source.toList, pos⟩) (h : (nodeCut pragmas (.forEach var source pos body)).Of ls)
    (hread : statement b fuel ⟨ls ++ rest, f, none⟩ = .ok (s, i)) :
    Yields SpelledInUnit ⟨source.toList, pos⟩ ∧ ∃ vs r, vs.length < ls.length ∧ (bracesCut (nodesCut pragmas body)).Of vs ∧
      b ⟨vs ++ rest, f, none⟩ = .ok r := by
  obtain ⟨ms, k, o, v, p, n, cs, c, vs, rfl, hm, hk, ho, hv, hn, hc, hcl, hvs⟩ := of_forEach h
  rw [show ms ++ k :: o :: v :: ⟨.name var, p⟩ :: n :: (cs ++ c :: vs) ++ rest =
    ms ++ k :: o :: v :: ⟨.name var, p⟩ :: n :: (cs ++ c :: (vs ++ rest)) by simp, Marked.statement_marks hm hk,
    Marked.statement_word] at hread
  obtain ⟨e, j, j', r, he, hj, hr⟩ := forEach_inv hread ho hv hn
  obtain ⟨hyields, rfl⟩ := hg.yields false nofun hc hcl (by decide) he hj
  refine ⟨hyields, vs, r, ?_, hvs, hr⟩
  simp only [List.length_append, List.length_cons]
  omega

mutual

/-- If the tokens of a node are read as a statement, the code of the node is an expression wherever it stands. -/
theorem node_yields {top : Bool} : (n : Node) → n.Proper top → (∀ g ∈ codeOf n, Enclosed g) →
    (∀ code ∈ written n, Sealed code.toList) → ∀ {ls rest : List Lexeme} {F fuel : Nat} {f : SourcePos} {s : Stmt} {i : Input},
    (nodeCut pragmas n).Of ls → ls.length ≤ F → ls.length ≤ fuel →
    statement (block F) fuel ⟨ls ++ rest, f, none⟩ = .ok (s, i) → ∀ g ∈ codeOf n, Yields SpelledInUnit g
  | .text _ _, _, _, _, _, _, _, _, _, _, _, _, _, _, _ => fun _ hg => nomatch hg
  | .sectionDef _ _ _, _, _, _, _, _, _, _, _, _, _, _, _, _, _ => fun _ hg => nomatch hg
  | .expr code pos, _, hg, hw, ls, rest, F, fuel, f, s, i, h, _, _, hread => by
    have hyields := expr_yields (hg _ (List.mem_singleton_self _)) (hw code (List.mem_singleton_self _)) h hread
    exact fun g hmem => List.mem_singleton.mp hmem ▸ hyields
  | .var name code pos, hp, hg, _, ls, rest, F, fuel, f, s, i, h, _, _, hread => by
    have hyields := var_yields (hg _ (List.mem_singleton_self _)) hp.2 h hread
    exact fun g hmem => List.mem_singleton.mp hmem ▸ hyields
  | .ifElse branches none, hp, hg, hw, ls, rest, F, fuel, f, s, i, h, hF, hfuel, hread => by
    obtain ⟨ms, ks, rs, r, rfl, hm, hk, hbranches⟩ := branches_yield branches hp.2 hg hw h hp.1
    obtain ⟨k, rfl, hif⟩ := of_one hk
    simp only [List.length_append, List.length_cons, List.length_nil] at hF hfuel
    rw [List.append_assoc, List.singleton_append, List.cons_append, Marked.statement_marks hm hif,
      Marked.statement_word] at hread
    obtain ⟨⟨a, j⟩, ha, -⟩ := Except.bind_eq_ok.mp hread
    exact (hbranches (by omega) (by omega) ha).1
  | .ifElse branches (some body), hp, hg, hw, ls, rest, F, fuel, f, s, i, h, hF, hfuel, hread => by
    obtain ⟨us, _, rfl, hu, hrest⟩ := of_append h
    obtain ⟨ms, ks, rs, r, rfl, hm, hk, hbranches⟩ := branches_yield branches hp.2.1
      (fun g hmem => hg g (List.mem_append_left _ hmem)) (fun c hmem => hw c (List.mem_append_left _ hmem)) hu hp.1
    obtain ⟨k, rfl, hif⟩ := of_one hk
    obtain ⟨k', vs, rfl, helse, hv⟩ := of_word hrest
    simp only [List.length_append, List.length_cons, List.length_nil] at hF hfuel
    rw [show ms ++ ([k] ++ rs) ++ k' :: vs ++ rest = ms ++ k :: (rs ++ k' :: (vs ++ rest)) by simp,
      Marked.statement_marks hm hif, Marked.statement_word] at hread
    obtain ⟨⟨a, j⟩, ha, -⟩ := Except.bind_eq_ok.mp hread
    obtain ⟨hyields, hblock⟩ := hbranches (by omega) (by omega) ha
    -- The brace of the last block is no condition.
    have hopen : (⟨vs ++ rest, f, none⟩ : Input).atWord "if" = false := by
      obtain ⟨o, _, rfl, ho, -⟩ := of_sym hv
      exact Marked.atWord_symbol ho
    obtain ⟨r, hr⟩ := hblock k' (vs ++ rest) rfl helse hopen
    obtain ⟨bs, e, hlt, hb, he, hstmts⟩ := braces_inv hv hr
    have hbody := nodes_yield body hp.2.2 (fun g hmem => hg g (List.mem_append_right _ (codeOfAll_subset _ hmem)))
      (fun c hmem => hw c (List.mem_append_right _ hmem)) hb he (by omega) hstmts
    exact fun g hmem => (List.mem_append.mp hmem).elim (hyields g) fun hmem => hbody g (mem_codeOfAll hp.2.2 hmem)
  | .forEach var source pos body, hp, hg, hw, ls, rest, F, fuel, f, s, i, h, hF, _, hread => by
    obtain ⟨hyields, vs, r, hvs, hv, hr⟩ := forEach_yields (hg _ List.mem_cons_self) h hread
    obtain ⟨bs, e, hlt, hb, he, hstmts⟩ := braces_inv hv hr
    have hbody := nodes_yield body hp.2 (fun g hmem => hg g (List.mem_cons_of_mem _ (codeOfAll_subset _ hmem))) hw hb he
      (by omega) hstmts
    exact List.forall_mem_cons.mpr ⟨hyields, fun g hmem => hbody g (mem_codeOfAll hp.2 hmem)⟩

theorem nodes_yield {top : Bool} : (ns : List Node) → Node.ProperAll top ns → (∀ g ∈ codeOfAll ns, Enclosed g) →
    (∀ code ∈ writtenAll ns, Sealed code.toList) → ∀ {us rest : List Lexeme} {e : Lexeme} {F : Nat} {f : SourcePos}
      {r : List Stmt × Input}, (nodesCut pragmas ns).Of us → IsSymbol .closeBrace e → us.length < F →
    statements F ⟨us ++ e :: rest, f, none⟩ = .ok r → ∀ g ∈ codeOfAll ns, Yields SpelledInUnit g
  | [], _, _, _, _, _, _, _, _, _, _, _, _, _ => fun _ hg => nomatch hg
  | n :: ns, hp, hg, hw, us, rest, e, F, f, r, h, he, hF, hread => by
    obtain ⟨us, vs, rfl, hu, hv⟩ := of_append h
    have hnoElse : NoElse (vs ++ e :: rest) := nodesCut_noElse hp.2 hv he
    obtain ⟨ms, q, k, w, rs, hstart, hm, hk, -⟩ := nodeCut_starts hp.1 hu
    rw [List.length_append] at hF
    have hpos : 0 < us.length := by
      rw [hstart]
      simp
    rw [List.append_assoc] at hread
    have hclose : (⟨us ++ (vs ++ e :: rest), f, none⟩ : Input).takePragmas.atSymbol .closeBrace = false := by
      rw [hstart, List.append_assoc, List.cons_append, hm.takePragmas_cons (Marked.noPragma_word hk)]
      exact Marked.atSymbol_word hk
    obtain ⟨F, s, i, ss, rfl, hs, hss⟩ := statements_inv hread hclose
    have hlengths : us.length ≤ F ∧ us.length ≤ F + 1 ∧ vs.length < F := by omega
    have hn := node_yields n hp.1 (fun g hmem => hg g (List.mem_append_left _ hmem))
      (fun c hmem => hw c (List.mem_append_left _ hmem)) hu hlengths.1 hlengths.2.1 hs
    -- The first node is read as its statement, so the others are read from where it ends.
    obtain ⟨s', hs', -⟩ := node_marked n hp.1 hn hu
    cases hs.symm.trans (hs'.reads hlengths.1 hlengths.2.1 _ f hnoElse)
    have hns := nodes_yield ns hp.2 (fun g hmem => hg g (List.mem_append_right _ hmem))
      (fun c hmem => hw c (List.mem_append_right _ hmem)) hv he hlengths.2.2 hss
    exact fun g hmem => (List.mem_append.mp hmem).elim (hn g) (hns g)

theorem branches_yield : (bs : List Markup.Branch) → Markup.Branch.ProperAll bs →
    (∀ g ∈ Markup.Branch.fragmentsAll bs, Enclosed g) → (∀ code ∈ writtenBranches bs, Sealed code.toList) →
    ∀ {start : Cut} {ls : List Lexeme}, (branchesCut pragmas start bs).Of ls → bs ≠ [] →
    ∃ ms ks rs r, ls = ms ++ (ks ++ rs) ∧ Marks none ms r ∧ start.Of ks ∧
      ∀ {F fuel : Nat} {rest : List Lexeme} {f : SourcePos} {a : (List Branch × Option (List Stmt)) × Input},
        rs.length ≤ F → rs.length < fuel → alternatives (block F) fuel ⟨rs ++ rest, f, none⟩ = .ok a →
        (∀ g ∈ Markup.Branch.fragmentsAll bs, Yields SpelledInUnit g) ∧
        ∀ k us, rest = k :: us → IsWord "else" k → (⟨us, f, none⟩ : Input).atWord "if" = false →
          ∃ r, block F ⟨us, f, none⟩ = .ok r
  | [], _, _, _, _, _, _, hne => absurd rfl hne
  | .mk cond pos body :: bs, hp, hg, hw, start, ls, h, _ => by
    obtain ⟨ms, ks, o, cs, c, vs, us, rfl, hm, hk, ho, hc, hcl, hv, h⟩ := of_branch h
    have ih := branches_yield bs hp.2 (fun g hmem => hg g (List.mem_cons_of_mem _ (List.mem_append_right _ hmem)))
      (fun x hmem => hw x (List.mem_append_right _ hmem)) h
    refine ⟨ms, ks, _, _, rfl, hm, hk, fun {F fuel rest f a} hF hfuel hread => ?_⟩
    simp only [List.length_append, List.length_cons] at hF hfuel
    obtain ⟨fuel, rfl⟩ := Nat.exists_eq_add_one.mpr (Nat.zero_lt_of_lt hfuel)
    rw [show o :: (cs ++ c :: (vs ++ us)) ++ rest = o :: (cs ++ c :: (vs ++ (us ++ rest))) by simp] at hread
    obtain ⟨e, j, j', ss, i, he, hj, hblock, hmore⟩ := alternatives_inv hread ho
    -- The parenthesis behind the condition is the one that closes it.
    obtain ⟨hyields, rfl⟩ := (hg _ List.mem_cons_self).yields false nofun hc hcl (by decide) he hj
    obtain ⟨ws, b, hlt, hws, hb, hstmts⟩ := braces_inv hv hblock
    have hbody := nodes_yield body hp.1
      (fun g hmem => hg g (List.mem_cons_of_mem _ (List.mem_append_left _ (codeOfAll_subset _ hmem))))
      (fun x hmem => hw x (List.mem_append_left _ hmem)) hws hb (by omega) hstmts
    -- The body is read as its statements, so what follows is read from where it ends.
    obtain ⟨ss', hss', -⟩ := braces_marked (P := MirrorStmts SpelledInUnit (placeOf pragmas) body)
      (nodes_marked body hp.1 hbody) hv
    have hvs : vs.length ≤ F := by omega
    cases hblock.symm.trans (hss'.reads hvs (us ++ rest) f)
    have hfirst : ∀ g ∈ ⟨cond.toList, pos⟩ :: Node.fragmentsAll body, Yields SpelledInUnit g :=
      List.forall_mem_cons.mpr ⟨hyields, fun g hmem => hbody g (mem_codeOfAll hp.1 hmem)⟩
    cases bs with
    | nil =>
      cases of_nil h
      refine ⟨fun g hmem => hfirst g (by simpa [Markup.Branch.fragmentsAll] using hmem), ?_⟩
      rintro k us rfl hk hif
      exact (hmore _ ((Marks.nil (q := none)).elseWord?_else hk)).2 hif
    | cons b' bs =>
      obtain ⟨ms', ks', rs', r', rfl, hm', hk', hlater⟩ := ih (List.cons_ne_nil _ _)
      obtain ⟨k, _, rfl, hek, hk'⟩ := of_word hk'
      obtain ⟨n, rfl, hif⟩ := of_one hk'
      rw [show ms' ++ (k :: [n] ++ rs') ++ rest = ms' ++ k :: (n :: (rs' ++ rest)) by simp] at hmore
      have hword : (⟨n :: (rs' ++ rest), f, none⟩ : Input).atWord "if" = true := Marked.atWord_cons (w := "if") hif
      obtain ⟨r, hr⟩ := (hmore _ (hm'.elseWord?_else hek)).1 hword
      simp only [List.length_append, List.length_cons] at hF hfuel
      obtain ⟨hyields', helse'⟩ := hlater (by omega) (by omega) hr
      refine ⟨fun g hmem => ?_, helse'⟩
      rcases List.mem_cons.mp hmem with hmem | hmem
      · exact hfirst g (hmem ▸ List.mem_cons_self)
      · rcases List.mem_append.mp hmem with hmem | hmem
        · exact hfirst g (List.mem_cons_of_mem _ hmem)
        · exact hyields' g hmem

end

/-! ### What is read as a member -/

/-- The code of statements closes what it opens, has no comment and, if it is written, no semicolon outside its
brackets. -/
structure Kept (ns : List Node) : Prop where
  enclosed : ∀ g ∈ codeOfAll ns, Enclosed g
  sealed : ∀ code ∈ writtenAll ns, Sealed code.toList

/-- The code of a member closes what it opens, has no comment and, if a semicolon follows it, none outside its
brackets. -/
def Part.Kept : Part → Prop
  | layout _ _ _ => True
  | function _ f => Enclosed f.fragment ∧ Sealed f.code.toList
  | sectionDef _ body | execute body => Unit.Kept body

/-- The tokens of a member start with its pragma and a keyword. -/
theorem partCut_starts {p : Part} (h : (p.cut pragmas).Of ls) :
    ∃ ms r k w rs, ls = ms ++ k :: rs ∧ Marks none ms r ∧ IsWord w k := by
  cases p with
  | layout pos inherited key =>
    obtain ⟨ms, _, rfl, hm, h⟩ := of_append h
    obtain ⟨ds, _, rfl, hd, h⟩ := of_append h
    obtain ⟨k, rs, rfl, hk, h⟩ := of_word h
    cases inherited with
    | false =>
      cases of_nil hd
      exact ⟨ms, _, k, _, rs, rfl, marks_of_markOf hm, hk⟩
    | true =>
      obtain ⟨d, rfl, hdefault⟩ := of_one hd
      exact ⟨ms, _, d, "default", k :: rs, rfl, marks_of_markOf hm, hdefault⟩
  | function own f =>
    obtain ⟨ms, _, rfl, hm, h⟩ := of_append h
    obtain ⟨k, rs, rfl, hk, h⟩ := of_word h
    exact ⟨ms, _, k, _, rs, rfl, marks_of_markOf hm, hk⟩
  | sectionDef name body | execute body =>
    obtain ⟨k, rs, rfl, hk, h⟩ := of_word h
    exact ⟨[], _, k, _, rs, rfl, .nil, hk⟩

theorem function_inv {n : String} {p : SourcePos} {o a : Lexeme} {ps : List Lexeme} {ns : List Named} {F : Nat}
    {r : Member × Input} (h : Unit.function F q ⟨⟨.name n, p⟩ :: o :: (ps ++ a :: rest), f, none⟩ = .ok r)
    (ho : IsSymbol .openParen o) (hparams : Grammar.IsParams ps ns) (hF : ps.length ≤ F) (ha : IsSymbol .arrow a) :
    ∃ e k j, expr F ⟨rest, f, none⟩ = .ok (e, k) ∧ k.expect .semicolon = .ok j := by
  rw [Unit.function, name_cons (n := ⟨n, p⟩) rfl] at h
  change (Input.expect .openParen ⟨o :: (ps ++ a :: rest), f, none⟩ >>= _) = _ at h
  rw [Input.expect_cons ho] at h
  change (parenthesizedList name F ⟨ps ++ a :: rest, f, none⟩ >>= _) = _ at h
  rw [Marked.params_reads hparams hF] at h
  change (Input.expect .arrow ⟨a :: rest, f, none⟩ >>= _) = _ at h
  rw [Input.expect_cons ha] at h
  change (expr F ⟨rest, f, none⟩ >>= _) = _ at h
  obtain ⟨⟨e, k⟩, he, h⟩ := Except.bind_eq_ok.mp h
  obtain ⟨j, hj, -⟩ := Except.bind_eq_ok.mp h
  exact ⟨e, k, j, he, hj⟩

theorem function_yields {own : Bool} {fn : Markup.FunctionDecl} {F : Nat} {r : Member × Input}
    (hkept : Enclosed fn.fragment ∧ Sealed fn.code.toList) (h : ((Part.function own fn).cut pragmas).Of ls)
    (hF : ls.length ≤ F) (hread : member F (⟨ls ++ rest, f, none⟩ : Input).takePragmas = .ok r) :
    Yields SpelledInUnit fn.fragment := by
  obtain ⟨ms, _, rfl, hm, hmember⟩ := of_append h
  obtain ⟨pos, _, rfl, hname⟩ := of_name hmember
  have hk : IsWord "function" ⟨.name "function", pos⟩ := rfl
  obtain ⟨p, _, rfl, hrest⟩ := of_name hname
  obtain ⟨o, _, rfl, ho, h⟩ := of_sym hrest
  obtain ⟨ns, _, rfl, hn, h⟩ := of_append h
  obtain ⟨c, _, rfl, hc, h⟩ := of_sym h
  obtain ⟨a, _, rfl, ha, h⟩ := of_sym h
  obtain ⟨cs, _, rfl, hcode, h⟩ := of_append h
  obtain ⟨s, rfl, hs⟩ := of_lastSym h
  obtain ⟨params, hparams, -⟩ := isParams_of_namesCut hn hc
  simp only [List.length_append, List.length_cons] at hF
  have hlength : (ns ++ [c]).length ≤ F := by
    rw [List.length_append, List.length_singleton]
    omega
  rw [show ms ++ ⟨.name "function", pos⟩ :: ⟨.name fn.name, p⟩ :: o :: (ns ++ c :: a :: (cs ++ [s])) ++ rest =
      ms ++ ⟨.name "function", pos⟩ :: (⟨.name fn.name, p⟩ :: o :: (ns ++ [c] ++ a :: (cs ++ s :: rest))) by simp,
    (marks_of_markOf hm).takePragmas_cons (Marked.noPragma_word hk), Marked.member_word] at hread
  obtain ⟨e, j, j', he, hj⟩ := function_inv hread ho hparams hlength ha
  exact (hkept.1.yields true (fun _ => hkept.2) hcode hs (by decide) he hj).1

/-- If the tokens of a member are read as a member, its code is an expression wherever it stands. -/
theorem part_yields {p : Part} {F : Nat} {r : Member × Input} (hp : p.Proper) (hkept : p.Kept)
    (h : (p.cut pragmas).Of ls) (hF : ls.length ≤ F)
    (hread : member F (⟨ls ++ rest, f, none⟩ : Input).takePragmas = .ok r) : ∀ g ∈ p.fragments, Yields SpelledInUnit g := by
  cases p with
  | layout => exact fun _ hg => nomatch hg
  | function own fn =>
    have hyields := function_yields hkept h hF hread
    exact fun g hmem => List.mem_singleton.mp hmem ▸ hyields
  | sectionDef name body =>
    obtain ⟨pos, _, rfl, hname⟩ := of_name h
    have hk : IsWord "section" ⟨.name "section", pos⟩ := rfl
    obtain ⟨l, vs, rfl, hl, hbody⟩ := of_cons hname
    rw [List.cons_append, Marked.takePragmas_noPragma (Marked.noPragma_word hk), Marked.member_word] at hread
    change (string ⟨l :: (vs ++ rest), f, none⟩ >>= _) = _ at hread
    rw [Marked.string_cons hl] at hread
    change (block F ⟨vs ++ rest, f, none⟩ >>= _) = _ at hread
    obtain ⟨b, hb, -⟩ := Except.bind_eq_ok.mp hread
    obtain ⟨us, e, hlt, hu, he, hstmts⟩ := braces_inv hbody hb
    rw [List.length_cons, List.length_cons] at hF
    exact fun g hmem => nodes_yield body hp hkept.enclosed hkept.sealed hu he (by omega) hstmts g (mem_codeOfAll hp hmem)
  | execute body =>
    obtain ⟨pos, vs, rfl, hbody⟩ := of_name h
    have hk : IsWord "execute" ⟨.name "execute", pos⟩ := rfl
    rw [List.cons_append, Marked.takePragmas_noPragma (Marked.noPragma_word hk), Marked.member_word] at hread
    obtain ⟨b, hb, -⟩ := Except.bind_eq_ok.mp hread
    obtain ⟨us, e, hlt, hu, he, hstmts⟩ := braces_inv hbody hb
    rw [List.length_cons] at hF
    exact nodes_yield body hp hkept.enclosed hkept.sealed hu he (by omega) hstmts

/-- Members are read one after another. -/
theorem members_inv {n : Nat} {r : List Member × Input} (h : members n i = .ok r)
    (hclose : i.takePragmas.atSymbol .closeBrace = false) :
    ∃ n' m k r', n = n' + 1 ∧ member n i.takePragmas = .ok (m, k) ∧ members n' k = .ok r' := by
  cases n with
  | zero => cases h
  | succ n =>
    rw [members] at h
    dsimp only at h
    rw [hclose, if_neg Bool.false_ne_true] at h
    obtain ⟨⟨m, k⟩, hm, h⟩ := Except.bind_eq_ok.mp h
    obtain ⟨r', hr, -⟩ := Except.bind_eq_ok.mp h
    exact ⟨n, m, k, r', rfl, hm, hr⟩

theorem parts_yield {ps : List Part} {n : Nat} {r : List Member × Input} (hp : ∀ p ∈ ps, p.Proper)
    (hkept : ∀ p ∈ ps, p.Kept) (h : (partsCut pragmas ps).Of ls) (hn : ls.length < n)
    (hread : members n ⟨ls ++ rest, f, none⟩ = .ok r) : ∀ p ∈ ps, ∀ g ∈ p.fragments, Yields SpelledInUnit g := by
  induction ps generalizing ls n r with
  | nil => exact fun _ hmem => nomatch hmem
  | cons p ps ih =>
    obtain ⟨us, vs, rfl, hu, hv⟩ := of_append h
    obtain ⟨ms, q, k, w, rs, hstart, hm, hk⟩ := partCut_starts hu
    rw [List.append_assoc] at hread
    have hclose : (⟨us ++ (vs ++ rest), f, none⟩ : Input).takePragmas.atSymbol .closeBrace = false := by
      rw [hstart, List.append_assoc, List.cons_append, hm.takePragmas_cons (Marked.noPragma_word hk)]
      exact Marked.atSymbol_word hk
    obtain ⟨n, m, j, r', rfl, hmember, hmembers⟩ := members_inv hread hclose
    rw [List.length_append] at hn
    have hpos : 0 < us.length := by
      rw [hstart]
      simp
    have hlengths : us.length ≤ n + 1 ∧ vs.length < n := by omega
    have hfirst := part_yields (hp p List.mem_cons_self) (hkept p List.mem_cons_self) hu hlengths.1 hmember
    -- The first member is read as itself, so the others are read from where it ends.
    obtain ⟨m', hm', -⟩ := part_marked (hp p List.mem_cons_self) hfirst hu
    obtain ⟨ms', q', k', w', rs', rfl, hmarks, hk', hreads⟩ := hm'.reads hlengths.1 (vs ++ rest) f
    rw [List.append_assoc, List.cons_append, hmarks.takePragmas_cons (Marked.noPragma_word hk')] at hmember
    cases hmember.symm.trans hreads
    exact List.forall_mem_cons.mpr ⟨hfirst, ih (fun p hmem => hp p (List.mem_cons_of_mem _ hmem))
      (fun p hmem => hkept p (List.mem_cons_of_mem _ hmem)) hv hlengths.2 hmembers⟩

end

/-! ### The tree of a unit that is read -/

theorem written_subset_of_mem {nodes : List Node} {n : Node} (h : n ∈ nodes) : written n ⊆ writtenAll nodes := by
  induction nodes with
  | nil => cases h
  | cons m ms ih =>
    rcases List.mem_cons.mp h with rfl | h
    · exact List.subset_append_left _ _
    · exact List.subset_append_of_subset_right _ (ih h)

/-- The code of functions closes what it opens and has no semicolon outside its brackets. -/
theorem declared_functions {m : Imported} {d : Document} {text : List Char} (hm : m.Proper) (hd : d.From text) :
    ∀ f ∈ (Declared.merge m d.directives).importedFunctions ++ (Declared.merge m d.directives).ownFunctions,
      Closed f.code.toList ∧ Sealed f.code.toList := by
  intro f hf
  rcases List.mem_append.mp hf with hf | hf
  · obtain ⟨hproper, hclosed⟩ := hm.functions f (List.mem_filter.mp hf).1
    exact ⟨hclosed, hproper.sealed⟩
  · obtain ⟨hproper, hin⟩ := hd.directives.functions f hf
    exact ⟨hin.closed, hproper.sealed⟩

theorem closed_of_mem_unitFragments {m : Imported} {d : Document} {text : List Char} {f : Fragment} (hm : m.Proper)
    (hd : d.From text) (hf : f ∈ unitFragments (Declared.merge m d.directives) d.nodes) : Closed f.text := by
  rcases List.mem_append.mp hf with hf | hf
  · obtain ⟨g, hg, rfl⟩ := List.mem_map.mp hf
    exact (declared_functions hm hd g hg).1
  · exact (hd.nodes.fragments f hf).closed

mutual

/-- What a node writes is code of the node. -/
theorem written_subset : (n : Node) → ∀ code ∈ written n, ∃ g ∈ n.fragments, g.text = code.toList
  | .text _ _ | .var _ _ _ => fun _ h => nomatch h
  | .expr code pos => fun _ h => ⟨⟨code.toList, pos⟩, List.mem_singleton_self _, by rw [List.mem_singleton.mp h]⟩
  | .ifElse branches none => writtenBranches_subset branches
  | .ifElse branches (some body) => fun code h => by
    rcases List.mem_append.mp h with h | h
    · obtain ⟨g, hg, htext⟩ := writtenBranches_subset branches code h
      exact ⟨g, List.mem_append_left _ hg, htext⟩
    · obtain ⟨g, hg, htext⟩ := writtenAll_subset body code h
      exact ⟨g, List.mem_append_right _ hg, htext⟩
  | .forEach _ _ _ body => fun code h => by
    obtain ⟨g, hg, htext⟩ := writtenAll_subset body code h
    exact ⟨g, List.mem_cons_of_mem _ hg, htext⟩
  | .sectionDef _ _ body => writtenAll_subset body

theorem writtenAll_subset : (ns : List Node) → ∀ code ∈ writtenAll ns, ∃ g ∈ Node.fragmentsAll ns, g.text = code.toList
  | [] => fun _ h => nomatch h
  | n :: ns => fun code h => by
    rcases List.mem_append.mp h with h | h
    · obtain ⟨g, hg, htext⟩ := written_subset n code h
      exact ⟨g, List.mem_append_left _ hg, htext⟩
    · obtain ⟨g, hg, htext⟩ := writtenAll_subset ns code h
      exact ⟨g, List.mem_append_right _ hg, htext⟩

theorem writtenBranches_subset : (bs : List Markup.Branch) → ∀ code ∈ writtenBranches bs,
    ∃ g ∈ Markup.Branch.fragmentsAll bs, g.text = code.toList
  | [] => fun _ h => nomatch h
  | .mk cond pos body :: bs => fun code h => by
    rcases List.mem_append.mp h with h | h
    · obtain ⟨g, hg, htext⟩ := writtenAll_subset body code h
      exact ⟨g, List.mem_cons_of_mem _ (List.mem_append_left _ hg), htext⟩
    · obtain ⟨g, hg, htext⟩ := writtenBranches_subset bs code h
      exact ⟨g, List.mem_cons_of_mem _ (List.mem_append_right _ hg), htext⟩

end

/-- What is declared keeps its code if all code is enclosed and what is written is sealed. -/
theorem parts_kept {d : Declared} {nodes : List Node} {p : Part}
    (henclosed : ∀ f ∈ unitFragments d nodes, Enclosed f) (hwritten : ∀ code ∈ writtenAll nodes, Sealed code.toList)
    (hfunctions : ∀ f ∈ d.importedFunctions ++ d.ownFunctions, Sealed f.code.toList) (h : p ∈ parts d nodes) : p.Kept := by
  have hcode : ∀ g ∈ p.fragments, Enclosed g := fun g hg => henclosed g (parts_fragments h hg)
  rcases mem_parts h with ⟨l, -, rfl⟩ | ⟨f, hf, rfl⟩ | ⟨f, hf, rfl⟩ | ⟨name, pos, body, hmem, rfl⟩ | rfl
  · trivial
  · exact ⟨hcode _ (List.mem_singleton_self _), hfunctions f (List.mem_append_left _ hf)⟩
  · exact ⟨hcode _ (List.mem_singleton_self _), hfunctions f (List.mem_append_right _ hf)⟩
  · exact ⟨fun g hg => hcode g (codeOfAll_subset body hg), fun code hc => hwritten code (written_subset_of_mem hmem hc)⟩
  · exact ⟨hcode, hwritten⟩

/-- If no code of a template has a comment and no expression that it writes has a semicolon outside its brackets, then a
unit that is generated from it and that can be read at all says what is declared, one statement for one node. -/
theorem contained_tree {g : Generator} {source : TemplateSource} {imports : List TemplateSource} {context : TypeContext}
    {u : Generated} {imported : Imported} {d : Document} {tree : Tree} (himported : Imported.ofFiles imports = .ok imported)
    (hd : Markup.parse source.key source.content = .ok d) (hgen : g.generate source imports context = .ok u)
    (hcontext : Dotted g.baseTypes context)
    (hcomment : ∀ f ∈ unitFragments (Declared.merge imported d.directives) d.nodes, hasComment .code f.text = false)
    (hwritten : ∀ code ∈ writtenAll d.nodes, Markup.findTopLevel code.toList [';'] = none)
    (hcontent : source.content.length < Text.maxCount) (hunit : u.source.length ≤ Text.maxCount)
    (htree : Tree.ofSource u.source = .ok tree) :
    MirrorTree SpelledInUnit g.pragmas g.baseTypes context (Declared.merge imported d.directives) d.nodes tree := by
  obtain ⟨imported', d', himported', hd', hsource⟩ := generate_eq_ok hgen
  cases himported.symm.trans himported'
  cases hd.symm.trans hd'
  have hfrom := Markup.parse_from hd
  have hm := Imported.proper_ofFiles himported
  have hready := unit_ready hcontext hm hfrom (by rwa [String.length_toList]) hcomment
  have henclosed : ∀ f ∈ unitFragments (Declared.merge imported d.directives) d.nodes, Enclosed f := fun f hf =>
    ⟨closed_of_mem_unitFragments hm hfrom hf, hcomment f hf⟩
  have hsealed : ∀ code ∈ writtenAll d.nodes, Sealed code.toList := by
    intro code hcode
    obtain ⟨f, hf, htext⟩ := writtenAll_subset d.nodes code hcode
    exact Markup.sealed_of_findTopLevel (htext ▸ (hfrom.nodes.fragments f hf).closed) (hwritten code hcode)
  rw [hsource] at hunit htree
  obtain ⟨ls, hls, hread⟩ := Except.bind_eq_ok.mp htree
  -- The tokens of the unit are those that its cut names.
  have hcut : (unitCut g.pragmas g.baseTypes context (Declared.merge imported d.directives) d.nodes).Of ls :=
    (unit_tokens hready (counted_of_length hunit)).symm.trans (lexemes_eq_ok hls)
  have hproper : ∀ p ∈ parts (Declared.merge imported d.directives) d.nodes, p.Proper := fun p =>
    parts_proper hfrom.nodes.proper
  have hkept : ∀ p ∈ parts (Declared.merge imported d.directives) d.nodes, p.Kept := fun p =>
    parts_kept henclosed hsealed fun f hf => (declared_functions hm hfrom f hf).2
  obtain ⟨ps, _, hframe, hps, -⟩ := @framed_of_unitCut SpelledInUnit _ _ _ _ _ _ hcut
  -- As the members are read, each piece of code in them is read as itself, and so the unit as what was meant.
  obtain ⟨n, e, r, hn, -, hmembers⟩ := hframe.members_read hread
  have hyields := parts_yield hproper hkept hps hn hmembers
  obtain ⟨tree', hunitls, htreeof⟩ := unit_marked hproper hyields hcut
  cases hread.symm.trans hunitls.reads
  exact htreeof

/-- The numbers of the nodes of a page and of the statements in the body of its unit, if the unit is read. -/
def counts? (g : Generator) (content : String) : Option (Nat × Nat) := do
  let d ← (Markup.parse "page" content).toOption
  let u ← (g.generate ⟨"page", content, none⟩ [] memberPageContext).toOption
  let t ← (Tree.ofSource u.source).toOption
  let statements : Member → Nat
    | .execute body _ => body.length
    | _ => 0
  return (d.nodes.length, (t.decl.members.map statements).sum)

theorem exists_of_counts? {g : Generator} {content : String} {n m : Nat} (h : counts? g content = some (n, m)) :
    ∃ d u t, Markup.parse "page" content = .ok d ∧ g.generate ⟨"page", content, none⟩ [] memberPageContext = .ok u ∧
      Tree.ofSource u.source = .ok t ∧ d.nodes.length = n := by
  obtain ⟨d, hd, h⟩ := Option.bind_eq_some_iff.mp h
  obtain ⟨u, hu, h⟩ := Option.bind_eq_some_iff.mp h
  obtain ⟨t, ht, h⟩ := Option.bind_eq_some_iff.mp h
  cases h
  exact ⟨d, u, t, eq_ok_of_toOption hd, eq_ok_of_toOption hu, eq_ok_of_toOption ht, rfl⟩

theorem memberPage_counts : counts? {} "Hi\n  @(Model.Name)" = some (2, 2) := by
  decide +kernel

/-- The unit of the page is read, and it has one statement for each of the two nodes. -/
theorem contained_tree_memberPage : ∃ (u : Generated) (d : Document) (tree : Tree),
    ({} : Generator).generate memberPage [] memberPageContext = .ok u ∧
      Markup.parse memberPage.key memberPage.content = .ok d ∧ Tree.ofSource u.source = .ok tree ∧ d.nodes.length = 2 ∧
      MirrorTree SpelledInUnit true BaseType.builtins memberPageContext (Declared.merge {} d.directives) d.nodes tree := by
  obtain ⟨d, u, tree, hd, hu, htree, hnodes⟩ := exists_of_counts? memberPage_counts
  have hlength : u.source.length ≤ Text.maxCount := by
    obtain ⟨u', hu', hlength⟩ := exists_of_toOption_any memberPage_generates.1
    cases hu.symm.trans hu'
    exact Nat.le_trans (length_le_utf8ByteSize _) (of_decide_eq_true hlength)
  have hcode := memberPage_fragments hd
  have hcomment : ∀ f ∈ unitFragments (Declared.merge {} d.directives) d.nodes, hasComment .code f.text = false := by
    intro f hf
    rw [hcode f hf]
    rfl
  have hwritten : ∀ code ∈ writtenAll d.nodes, Markup.findTopLevel code.toList [';'] = none := by
    intro code hmem
    obtain ⟨f, hf, htext⟩ := writtenAll_subset d.nodes code hmem
    rw [← htext, hcode f (List.mem_append_right _ hf)]
    rfl
  have hof := contained_tree rfl hd hu memberPageContext_dotted hcomment hwritten (by decide +kernel) hlength htree
  exact ⟨u, d, tree, hu, hd, htree, hnodes, hof⟩

/-! Both conditions are needed: a semicolon ends the statement that the code stands in, and a comment takes the semicolon
behind the code with it. -/

theorem semicolon_ends_statement : counts? {} "@(Model; write \"x\")" = some (1, 2) := by
  decide +kernel

theorem comment_takes_semicolon : counts? { pragmas := false } "@( // x)@((Model))" = some (2, 1) := by
  decide +kernel

end Stencil.Unit
