import Stencil.Proofs.Unit.Reading

/-! The readers of expressions and the grammar of expressions.

What a reader takes spells what it gives. -/

namespace Stencil.Unit

open Grammar

variable {i j : Input} {e : Expr}

/-! ### What is read is an expression -/

section
variable {expr : Reader Expr} (he : Spells expr (IsExpr .either))
include he

theorem spells_primary : Spells (primary expr) (IsExpr .primary) := by
  intro i e j h
  unfold primary at h
  split at h
  · rename_i n hn
    split at h
    · rename_i v hv
      cases h
      exact ⟨_, Input.takes_next hn, .atom (.word hv)⟩
    · rename_i hv
      cases h
      exact ⟨_, Input.takes_next hn, .atom (.name hv)⟩
  · rename_i s hs
    cases h
    exact ⟨_, Input.takes_next hs, .atom (.string s _)⟩
  · rename_i n hn
    cases h
    exact ⟨_, Input.takes_next hn, .atom (.number n _)⟩
  · rename_i ho
    obtain ⟨⟨e', i'⟩, hread, h⟩ := Except.bind_eq_ok.mp h
    obtain ⟨i'', hclose, h⟩ := Except.bind_eq_ok.mp h
    cases h
    obtain ⟨ls, htakes, hspells⟩ := he _ _ _ hread
    refine ⟨_, (Input.takes_next ho).trans (htakes.trans (Input.takes_expect hclose)), ?_⟩
    exact .parens rfl hspells rfl
  · cases h

theorem spells_commaList (fuel : Nat) : Spells (commaList expr fuel) fun ls es => IsArgs ls es ∧ es ≠ [] := by
  induction fuel with
  | zero =>
    intro i es j h
    cases h
  | succ fuel ih =>
    intro i es j h
    obtain ⟨⟨e, i'⟩, hread, h⟩ := Except.bind_eq_ok.mp h
    obtain ⟨ls, htakes, hspells⟩ := he _ _ _ hread
    dsimp only at h
    split at h
    · rename_i hclose
      cases h
      refine ⟨_, htakes.trans (Input.takes_next (Input.atSymbol_iff.mp hclose)), .last hspells rfl, ?_⟩
      exact List.cons_ne_nil _ _
    · obtain ⟨i'', hcomma, h⟩ := Except.bind_eq_ok.mp h
      obtain ⟨⟨es', j'⟩, hlist, h⟩ := Except.bind_eq_ok.mp h
      cases h
      obtain ⟨rs, htakes', hargs, hne⟩ := ih _ _ _ hlist
      obtain ⟨e', es, rfl⟩ := List.exists_cons_of_ne_nil hne
      refine ⟨_, htakes.trans ((Input.takes_expect hcomma).trans htakes'), .cons hspells rfl hargs, ?_⟩
      exact List.cons_ne_nil _ _

theorem spells_arguments (fuel : Nat) : Spells (parenthesizedList expr fuel) IsArgs := by
  intro i es j h
  unfold parenthesizedList at h
  split at h
  · rename_i hclose
    cases h
    exact ⟨_, Input.takes_next (Input.atSymbol_iff.mp hclose), .nil rfl⟩
  · obtain ⟨ls, htakes, hargs, -⟩ := spells_commaList he fuel _ _ _ h
    exact ⟨ls, htakes, hargs⟩

/-- What follows an expression goes on with it. -/
theorem accesses_spells (fuel : Nat) {i j : Input} {e e' : Expr} (h : accesses expr fuel e i = .ok (e', j))
    {ls : List Lexeme} (hl : IsExpr .access ls e) : ∃ rs, i.Takes rs j ∧ IsExpr .access (ls ++ rs) e' := by
  induction fuel generalizing i e ls with
  | zero => cases h
  | succ fuel ih =>
    unfold accesses at h
    split at h
    · rename_i hdot
      obtain ⟨⟨n, i'⟩, hname, h⟩ := Except.bind_eq_ok.mp h
      obtain ⟨_, htakes, l, rfl, hn⟩ := spells_name _ _ _ hname
      have hd := Input.takes_next (Input.atSymbol_iff.mp hdot)
      obtain ⟨rs, htakes', hall⟩ := ih h (.member (d := ⟨.symbol .dot, i.pos⟩) hl rfl hn)
      refine ⟨_, (hd.trans htakes).trans htakes', ?_⟩
      rwa [List.append_assoc] at hall
    · split at h
      · rename_i hopen
        obtain ⟨⟨es, i'⟩, hargs, h⟩ := Except.bind_eq_ok.mp h
        obtain ⟨as, htakes, has⟩ := spells_arguments he fuel _ _ _ hargs
        have ho := Input.takes_next (Input.atSymbol_iff.mp hopen)
        obtain ⟨rs, htakes', hall⟩ := ih h (.call (o := ⟨.symbol .openParen, i.pos⟩) hl rfl has)
        refine ⟨_, (ho.trans htakes).trans htakes', ?_⟩
        rwa [List.append_assoc] at hall
      · cases h
        refine ⟨[], .refl _, ?_⟩
        rwa [List.append_nil]

theorem spells_unary (fuel : Nat) : Spells (unary expr fuel) (IsExpr .unary) := by
  induction fuel with
  | zero =>
    intro i e j h
    cases h
  | succ fuel ih =>
    intro i e j h
    unfold unary at h
    split at h
    · rename_i hbang
      obtain ⟨⟨e', j'⟩, hread, h⟩ := Except.bind_eq_ok.mp h
      cases h
      obtain ⟨ls, htakes, hspells⟩ := ih _ _ _ hread
      exact ⟨_, (Input.takes_next (Input.atSymbol_iff.mp hbang)).trans htakes, .not rfl hspells⟩
    · obtain ⟨⟨e', i'⟩, hread, h⟩ := Except.bind_eq_ok.mp h
      obtain ⟨ls, htakes, hspells⟩ := spells_primary he _ _ _ hread
      obtain ⟨rs, htakes', hall⟩ := accesses_spells he _ h (.ofPrimary hspells)
      exact ⟨_, htakes.trans htakes', .ofAccess hall⟩

end

theorem spells_equality {operand : Reader Expr} (ho : Spells operand (IsExpr .unary)) :
    Spells (equality operand) (IsExpr .equality) := by
  intro i e j h
  obtain ⟨⟨d, i'⟩, hleft, h⟩ := Except.bind_eq_ok.mp h
  obtain ⟨ls, htakes, hl⟩ := ho _ _ _ hleft
  dsimp only at h
  split at h
  · rename_i heq
    obtain ⟨⟨e', j'⟩, hright, h⟩ := Except.bind_eq_ok.mp h
    cases h
    obtain ⟨rs, htakes', hr⟩ := ho _ _ _ hright
    have hs := Input.takes_next (Input.atSymbol_iff.mp heq)
    exact ⟨_, htakes.trans (hs.trans htakes'), .compare hl (.equal rfl) hr⟩
  · split at h
    · rename_i hne
      obtain ⟨⟨e', j'⟩, hright, h⟩ := Except.bind_eq_ok.mp h
      cases h
      obtain ⟨rs, htakes', hr⟩ := ho _ _ _ hright
      have hs := Input.takes_next (Input.atSymbol_iff.mp hne)
      exact ⟨_, htakes.trans (hs.trans htakes'), .compare hl (.unequal rfl) hr⟩
    · cases h
      exact ⟨ls, htakes, .ofUnary hl⟩

/-- Operands with a symbol between them, where one more operand goes on with what was read before it. -/
theorem chainRest_spells {operand : Reader Expr} {P Q : List Lexeme → Expr → Prop} (ho : Spells operand P) {s : Symbol}
    {op : Ir.BinaryOp} (hstep : ∀ ls rs (l : Lexeme) d e, Q ls d → IsSymbol s l → P rs e →
      Q (ls ++ l :: rs) (.binary op d e))
    (fuel : Nat) {i j : Input} {d e : Expr} (h : chainRest operand s op fuel d i = .ok (e, j))
    {ls : List Lexeme} (hl : Q ls d) : ∃ rs, i.Takes rs j ∧ Q (ls ++ rs) e := by
  induction fuel generalizing i d ls with
  | zero => cases h
  | succ fuel ih =>
    unfold chainRest at h
    split at h
    · rename_i hs
      obtain ⟨⟨e', i'⟩, hread, h⟩ := Except.bind_eq_ok.mp h
      obtain ⟨rs, htakes, hr⟩ := ho _ _ _ hread
      obtain ⟨rs', htakes', hall⟩ := ih h (hstep ls rs ⟨.symbol s, i.pos⟩ d e' hl rfl hr)
      refine ⟨_, ((Input.takes_next (Input.atSymbol_iff.mp hs)).trans htakes).trans htakes', ?_⟩
      rwa [List.append_assoc] at hall
    · cases h
      refine ⟨[], .refl _, ?_⟩
      rwa [List.append_nil]

theorem spells_chain {operand : Reader Expr} {P Q : List Lexeme → Expr → Prop} (ho : Spells operand P) {s : Symbol}
    {op : Ir.BinaryOp} (hone : ∀ ls e, P ls e → Q ls e)
    (hstep : ∀ ls rs (l : Lexeme) d e, Q ls d → IsSymbol s l → P rs e → Q (ls ++ l :: rs) (.binary op d e))
    (fuel : Nat) : Spells (chain operand s op fuel) Q := by
  intro i e j h
  obtain ⟨⟨d, i'⟩, hread, h⟩ := Except.bind_eq_ok.mp h
  obtain ⟨ls, htakes, hl⟩ := ho _ _ _ hread
  obtain ⟨rs, htakes', hall⟩ := chainRest_spells ho hstep fuel h (hone ls d hl)
  exact ⟨_, htakes.trans htakes', hall⟩

/-- What the reader of expressions takes spells the expression that it gives. -/
theorem spells_expr (fuel : Nat) : Spells (expr fuel) (IsExpr .either) := by
  induction fuel with
  | zero =>
    intro i e j h
    cases h
  | succ fuel ih =>
    have hboth : Spells (chain (equality (unary (expr fuel) (fuel + 1))) .both .and (fuel + 1)) (IsExpr .both) :=
      spells_chain (spells_equality (spells_unary ih _)) (fun _ _ => .ofEquality)
        (fun _ _ _ _ _ hl hs hr => .both hl hs hr) _
    exact spells_chain hboth (fun _ _ => .ofBoth) (fun _ _ _ _ _ hl hs hr => .either hl hs hr) _

/-! ### Every expression is read -/

namespace Grammar

/-- The symbols that go on with an expression of a level. -/
def Level.continuations : Level → List Symbol
  | primary => []
  | access | unary => [.dot, .openParen]
  | equality => [.dot, .openParen, .equal, .unequal]
  | both => [.dot, .openParen, .equal, .unequal, .both]
  | either => [.dot, .openParen, .equal, .unequal, .both, .either]

/-- The tokens do not go on with an expression of a level. -/
def Stops (k : Level) (rest : List Lexeme) : Prop :=
  ∀ l ∈ rest.head?, ∀ s ∈ k.continuations, ¬IsSymbol s l

theorem Stops.atSymbol {k : Level} {rest : List Lexeme} (h : Stops k rest) {s : Symbol} (hs : s ∈ k.continuations)
    (f : SourcePos) (pending : Option SourcePos) : (⟨rest, f, pending⟩ : Input).atSymbol s = false := by
  rw [Bool.eq_false_iff]
  intro hat
  cases rest with
  | nil => cases Input.atSymbol_iff.mp hat
  | cons l rest => exact h l rfl s hs (Option.some.inj (Input.atSymbol_iff.mp hat))

theorem Stops.mono {k k' : Level} (hk : k.continuations ⊆ k'.continuations) {rest : List Lexeme} (h : Stops k' rest) :
    Stops k rest :=
  fun l hl s hs => h l hl s (hk hs)

theorem stops_symbol {k : Level} {s : Symbol} {l : Lexeme} (hl : IsSymbol s l) (hs : s ∉ k.continuations)
    (rest : List Lexeme) : Stops k (l :: rest) := by
  rintro _ ⟨⟩ s' hs' hl'
  cases hl.symm.trans hl'
  exact hs hs'

/-- An expression starts with no symbol but a parenthesis, or a negation if it is no operand of an access. -/
theorem IsExpr.starts {k : Level} {ls : List Lexeme} {e : Expr} (h : IsExpr k ls e) :
    ∃ l ls', ls = l :: ls' ∧ ∀ s, IsSymbol s l → s = .openParen ∨ s = .bang ∧ k ≠ .primary ∧ k ≠ .access := by
  induction h using IsExpr.rec (motive_2 := fun _ _ _ => True) with
  | atom ha =>
    refine ⟨_, _, rfl, fun s hs => ?_⟩
    cases ha <;> cases hs
  | parens ho =>
    refine ⟨_, _, rfl, fun s hs => .inl ?_⟩
    cases ho.symm.trans hs
    rfl
  | not hb =>
    refine ⟨_, _, rfl, fun s hs => .inr ?_⟩
    cases hb.symm.trans hs
    exact ⟨rfl, nofun, nofun⟩
  | ofPrimary _ ih =>
    obtain ⟨l, ls', rfl, hl⟩ := ih
    refine ⟨l, ls', rfl, fun s hs => .inl ((hl s hs).resolve_right fun h => h.2.1 rfl)⟩
  | ofAccess _ ih | ofUnary _ ih | ofEquality _ ih | ofBoth _ ih =>
    obtain ⟨l, ls', rfl, hl⟩ := ih
    refine ⟨l, ls', rfl, fun s hs => (hl s hs).imp_right fun h => ⟨h.1, nofun, nofun⟩⟩
  | member _ _ _ ih | call _ _ _ ih =>
    obtain ⟨l, ls', rfl, hl⟩ := ih
    exact ⟨l, _, rfl, hl⟩
  | compare _ _ _ ih | both _ _ _ ih | either _ _ _ ih =>
    obtain ⟨l, ls', rfl, hl⟩ := ih
    exact ⟨l, _, rfl, fun s hs => (hl s hs).imp_right fun h => ⟨h.1, nofun, nofun⟩⟩
  | nil | last | cons => trivial

end Grammar

section
variable {F : Nat}

/-- Reading these tokens comes to following up on this expression. -/
def Accesses (F : Nat) (ls : List Lexeme) (e : Expr) : Prop :=
  ∀ fuel rest f pending, ls.length ≤ fuel → ∃ fuel', fuel < fuel' + ls.length ∧
    unary (expr F) fuel ⟨ls ++ rest, f, pending⟩ = accesses (expr F) fuel' e ⟨rest, f, pending⟩

/-- Reading these tokens comes to following up on this operand, unless the rest goes on with it. -/
def Chains (operand : Reader Expr) (s : Symbol) (op : Ir.BinaryOp) (k : Level) (ls : List Lexeme) (e : Expr) : Prop :=
  ∀ fuel rest f pending, ls.length ≤ fuel → Stops k rest → ∃ fuel', fuel < fuel' + ls.length ∧
    chain operand s op fuel ⟨ls ++ rest, f, pending⟩ = chainRest operand s op fuel' e ⟨rest, f, pending⟩

/-- The readers of expressions that are parts of tokens. -/
def equalityOf (F : Nat) : Reader Expr := equality (unary (expr F) (F + 1))

def bothOf (F : Nat) : Reader Expr := chain (equalityOf F) .both .and (F + 1)

/-! #### One level from the one below it -/

theorem reads_atom {l : Lexeme} {e : Expr} (ha : IsAtom l e) : Reads (primary (expr F)) [l] e fun _ => True := by
  intro rest f pending _
  cases ha with
  | word hv =>
    simp only [primary, Input.peek?, List.singleton_append, List.head?_cons, Option.map_some, hv]
    rfl
  | name hn =>
    simp only [primary, Input.peek?, List.singleton_append, List.head?_cons, Option.map_some, hn]
    rfl
  | string s p => rfl
  | number n p => rfl

theorem reads_parens {o c : Lexeme} {ls : List Lexeme} {e : Expr} (ho : IsSymbol .openParen o)
    (he : Reads (expr F) ls e (Stops .either)) (hc : IsSymbol .closeParen c) :
    Reads (primary (expr F)) (o :: ls ++ [c]) e fun _ => True := by
  intro rest f pending _
  obtain ⟨token, p⟩ := o
  cases ho
  have hread := he (c :: rest) f pending (stops_symbol hc (by decide) rest)
  rw [List.cons_append, List.cons_append, List.append_assoc, List.singleton_append]
  show (expr F ⟨ls ++ c :: rest, f, pending⟩ >>= fun r => _) = _
  rw [hread]
  show (Input.expect .closeParen ⟨c :: rest, f, pending⟩ >>= fun r => _) = _
  rw [Input.expect_cons hc]
  rfl

theorem accesses_ofPrimary {ls : List Lexeme} {e : Expr} (hg : IsExpr .primary ls e)
    (he : Reads (primary (expr F)) ls e fun _ => True) : Accesses F ls e := by
  intro fuel rest f pending hfuel
  obtain ⟨l, ls', rfl, hl⟩ := hg.starts
  obtain ⟨fuel, rfl⟩ : ∃ n, fuel = n + 1 := Nat.exists_eq_add_one.mpr (by simp at hfuel; omega)
  refine ⟨fuel + 1, by simp, ?_⟩
  have hbang : (⟨l :: ls' ++ rest, f, pending⟩ : Input).atSymbol .bang = false := by
    rw [Bool.eq_false_iff]
    intro h
    rcases hl .bang (Option.some.inj (Input.atSymbol_iff.mp h)) with h | h
    · cases h
    · exact h.2.1 rfl
  rw [unary, hbang, if_neg (by decide), he rest f pending trivial]
  rfl

theorem Accesses.member {ls : List Lexeme} {d l : Lexeme} {e : Expr} {n : Named} (he : Accesses F ls e)
    (hd : IsSymbol .dot d) (hn : IsName n l) : Accesses F (ls ++ [d, l]) (.member e n) := by
  intro fuel rest f pending hfuel
  rw [List.length_append, List.length_cons, List.length_singleton] at hfuel
  obtain ⟨fuel', hlt, hread⟩ := he fuel (d :: l :: rest) f pending (by omega)
  obtain ⟨fuel', rfl⟩ : ∃ n, fuel' = n + 1 := Nat.exists_eq_add_one.mpr (by omega)
  refine ⟨fuel', by rw [List.length_append, List.length_cons, List.length_singleton]; omega, ?_⟩
  rw [List.append_assoc, List.cons_append, List.singleton_append, hread, accesses, Input.atSymbol_cons hd]
  show (name ⟨l :: rest, f, pending⟩ >>= fun r => _) = _
  rw [name_cons hn]
  rfl

theorem Accesses.call {ls as : List Lexeme} {o : Lexeme} {e : Expr} {es : List Expr} (he : Accesses F ls e)
    (ho : IsSymbol .openParen o)
    (ha : ∀ fuel, as.length ≤ fuel → Reads (parenthesizedList (expr F) fuel) as es fun _ => True) :
    Accesses F (ls ++ o :: as) (.call e es) := by
  intro fuel rest f pending hfuel
  rw [List.length_append, List.length_cons] at hfuel
  obtain ⟨fuel', hlt, hread⟩ := he fuel (o :: as ++ rest) f pending (by omega)
  obtain ⟨fuel', rfl⟩ : ∃ n, fuel' = n + 1 := Nat.exists_eq_add_one.mpr (by omega)
  refine ⟨fuel', by rw [List.length_append, List.length_cons]; omega, ?_⟩
  rw [List.append_assoc, hread, List.cons_append, accesses, Input.atSymbol_cons ho, Input.atSymbol_cons ho]
  show (parenthesizedList (expr F) fuel' ⟨as ++ rest, f, pending⟩ >>= fun r => _) = _
  rw [ha fuel' (by omega) rest f pending trivial]
  rfl

theorem reads_noArguments {c : Lexeme} (hc : IsSymbol .closeParen c) (fuel : Nat) :
    Reads (parenthesizedList (expr F) fuel) [c] [] fun _ => True := by
  intro rest f pending _
  rw [List.singleton_append, parenthesizedList, Input.atSymbol_cons hc]
  rfl

theorem reads_lastArgument {ls : List Lexeme} {c : Lexeme} {e : Expr} (he : Reads (expr F) ls e (Stops .either))
    (hc : IsSymbol .closeParen c) (fuel : Nat) : Reads (commaList (expr F) (fuel + 1)) (ls ++ [c]) [e] fun _ => True := by
  intro rest f pending _
  rw [List.append_assoc, List.singleton_append, commaList, he (c :: rest) f pending (stops_symbol hc (by decide) rest)]
  show (if Input.atSymbol ⟨c :: rest, f, pending⟩ .closeParen then _ else _) = _
  rw [Input.atSymbol_cons hc]
  rfl

theorem reads_moreArguments {ls rs : List Lexeme} {c : Lexeme} {e : Expr} {es : List Expr}
    (he : Reads (expr F) ls e (Stops .either)) (hc : IsSymbol .comma c) {fuel : Nat}
    (ha : Reads (commaList (expr F) fuel) rs es fun _ => True) :
    Reads (commaList (expr F) (fuel + 1)) (ls ++ c :: rs) (e :: es) fun _ => True := by
  intro rest f pending _
  rw [List.append_assoc, List.cons_append, commaList,
    he (c :: (rs ++ rest)) f pending (stops_symbol hc (by decide) _)]
  show (if Input.atSymbol ⟨c :: (rs ++ rest), f, pending⟩ .closeParen then _ else _) = _
  rw [Input.atSymbol_cons hc, if_neg (by decide), Input.expect_cons hc]
  show (commaList (expr F) fuel ⟨rs ++ rest, f, pending⟩ >>= fun r => _) = _
  rw [ha rest f pending trivial]
  rfl

/-- An expression does not start with the parenthesis that ends a list. -/
theorem reads_arguments {ls rs : List Lexeme} {e : Expr} (hg : IsExpr .either ls e) {es : List Expr} {fuel : Nat}
    (ha : Reads (commaList (expr F) fuel) (ls ++ rs) es fun _ => True) :
    Reads (parenthesizedList (expr F) fuel) (ls ++ rs) es fun _ => True := by
  intro rest f pending _
  obtain ⟨l, ls', rfl, hl⟩ := hg.starts
  have hclose : (⟨(l :: ls' ++ rs) ++ rest, f, pending⟩ : Input).atSymbol .closeParen = false := by
    rw [Bool.eq_false_iff]
    intro h
    rcases hl .closeParen (Option.some.inj (Input.atSymbol_iff.mp h)) with h | h
    · cases h
    · cases h.1
  rw [parenthesizedList, hclose, if_neg (by decide)]
  exact ha rest f pending trivial

theorem reads_ofAccess {ls : List Lexeme} {e : Expr} (he : Accesses F ls e) {fuel : Nat} (hfuel : ls.length ≤ fuel) :
    Reads (unary (expr F) fuel) ls e (Stops .unary) := by
  intro rest f pending hstops
  obtain ⟨fuel', hlt, hread⟩ := he fuel rest f pending hfuel
  obtain ⟨fuel', rfl⟩ : ∃ n, fuel' = n + 1 := Nat.exists_eq_add_one.mpr (by omega)
  rw [hread, accesses, hstops.atSymbol (by decide), hstops.atSymbol (by decide)]
  rfl

theorem reads_not {ls : List Lexeme} {b : Lexeme} {e : Expr} (hb : IsSymbol .bang b) {fuel : Nat}
    (he : Reads (unary (expr F) fuel) ls e (Stops .unary)) :
    Reads (unary (expr F) (fuel + 1)) (b :: ls) (.not e b.pos) (Stops .unary) := by
  intro rest f pending hstops
  rw [List.cons_append, unary, Input.atSymbol_cons hb]
  show (unary (expr F) fuel ⟨ls ++ rest, f, pending⟩ >>= fun r => _) = _
  rw [he rest f pending hstops]
  rfl

theorem reads_ofUnary {operand : Reader Expr} {ls : List Lexeme} {e : Expr} (he : Reads operand ls e (Stops .unary)) :
    Reads (equality operand) ls e (Stops .equality) := by
  intro rest f pending hstops
  rw [equality, he rest f pending (hstops.mono (by decide))]
  show (if Input.atSymbol ⟨rest, f, pending⟩ .equal then _ else if Input.atSymbol ⟨rest, f, pending⟩ .unequal then _
    else _) = _
  rw [hstops.atSymbol (by decide), hstops.atSymbol (by decide)]
  rfl

theorem reads_compare {operand : Reader Expr} {ls rs : List Lexeme} {s : Lexeme} {op : Ir.BinaryOp} {d e : Expr}
    (hl : Reads operand ls d (Stops .unary)) (hs : IsComparison s op) (hr : Reads operand rs e (Stops .unary)) :
    Reads (equality operand) (ls ++ s :: rs) (.binary op d e) (Stops .equality) := by
  intro rest f pending hstops
  have hread := hr rest f pending (hstops.mono (by decide))
  rw [List.append_assoc, List.cons_append]
  cases hs with
  | equal hs =>
    rw [equality, hl (s :: (rs ++ rest)) f pending (stops_symbol hs (by decide) _)]
    show (if Input.atSymbol ⟨s :: (rs ++ rest), f, pending⟩ .equal then operand ⟨rs ++ rest, f, pending⟩ >>= _
      else _) = _
    rw [Input.atSymbol_cons hs, hread]
    rfl
  | unequal hs =>
    rw [equality, hl (s :: (rs ++ rest)) f pending (stops_symbol hs (by decide) _)]
    show (if Input.atSymbol ⟨s :: (rs ++ rest), f, pending⟩ .equal then _
      else if Input.atSymbol ⟨s :: (rs ++ rest), f, pending⟩ .unequal then operand ⟨rs ++ rest, f, pending⟩ >>= _
      else _) = _
    rw [Input.atSymbol_cons hs, Input.atSymbol_cons hs, hread]
    rfl

theorem chains_one {operand : Reader Expr} {s : Symbol} {op : Ir.BinaryOp} {k : Level} {ls : List Lexeme} {e : Expr}
    (hne : ls ≠ []) (he : Reads operand ls e (Stops k)) : Chains operand s op k ls e := by
  intro fuel rest f pending hfuel hstops
  have hpos := List.length_pos_iff.mpr hne
  refine ⟨fuel, by omega, ?_⟩
  rw [chain, he rest f pending hstops]
  rfl

theorem Chains.more {operand : Reader Expr} {s : Symbol} {op : Ir.BinaryOp} {k : Level} {ls rs : List Lexeme}
    {l : Lexeme} {d e : Expr} (hl : Chains operand s op k ls d) (hs : IsSymbol s l) (hk : s ∉ k.continuations)
    (hr : Reads operand rs e (Stops k)) : Chains operand s op k (ls ++ l :: rs) (.binary op d e) := by
  intro fuel rest f pending hfuel hstops
  rw [List.length_append, List.length_cons] at hfuel
  obtain ⟨fuel', hlt, hread⟩ := hl fuel (l :: rs ++ rest) f pending (by omega) (stops_symbol hs hk _)
  obtain ⟨fuel', rfl⟩ : ∃ n, fuel' = n + 1 := Nat.exists_eq_add_one.mpr (by omega)
  refine ⟨fuel', by rw [List.length_append, List.length_cons]; omega, ?_⟩
  rw [List.append_assoc, hread, List.cons_append, chainRest, Input.atSymbol_cons hs, beq_self_eq_true, if_pos rfl]
  show (operand ⟨rs ++ rest, f, pending⟩ >>= fun r => _) = _
  rw [hr rest f pending hstops]
  rfl

theorem Chains.reads {operand : Reader Expr} {s : Symbol} {op : Ir.BinaryOp} {k k' : Level} {ls : List Lexeme}
    {e : Expr} (he : Chains operand s op k ls e) (hk : k.continuations ⊆ k'.continuations) (hs : s ∈ k'.continuations)
    {fuel : Nat} (hfuel : ls.length ≤ fuel) : Reads (chain operand s op fuel) ls e (Stops k') := by
  intro rest f pending hstops
  obtain ⟨fuel', hlt, hread⟩ := he fuel rest f pending hfuel (hstops.mono hk)
  obtain ⟨fuel', rfl⟩ : ∃ n, fuel' = n + 1 := Nat.exists_eq_add_one.mpr (by omega)
  rw [hread, chainRest, hstops.atSymbol hs]
  rfl

/-! #### All levels -/

/-- The tokens are read as an expression of the level, where `F` bounds the reader of whole expressions. -/
def Completes (F : Nat) : Level → List Lexeme → Expr → Prop
  | .primary, ls, e => Reads (primary (expr F)) ls e fun _ => True
  | .access, ls, e => Accesses F ls e
  | .unary, ls, e => ∀ fuel, ls.length ≤ fuel → Reads (unary (expr F) fuel) ls e (Stops .unary)
  | .equality, ls, e => Reads (equalityOf F) ls e (Stops .equality)
  | .both, ls, e => Chains (equalityOf F) .both .and .equality ls e
  | .either, ls, e => Chains (bothOf F) .either .or .both ls e

theorem Completes.reads {ls : List Lexeme} {e : Expr} (h : ∀ F, ls.length ≤ F → Completes F .either ls e)
    (hF : ls.length < F) : Reads (expr F) ls e (Stops .either) := by
  obtain ⟨F, rfl⟩ : ∃ n, F = n + 1 := Nat.exists_eq_add_one.mpr (by omega)
  exact Chains.reads (h F (by omega)) (by decide) (by decide) (by omega)

mutual

theorem Grammar.IsExpr.completes {k : Level} {ls : List Lexeme} {e : Expr} :
    IsExpr k ls e → ∀ F, ls.length ≤ F → Completes F k ls e
  | .atom ha, _, _ => reads_atom ha
  | .parens ho he hc, F, hF => by
    simp only [List.length_append, List.length_cons, List.length_nil] at hF
    exact reads_parens ho (Completes.reads he.completes (by omega)) hc
  | .ofPrimary he, F, hF => accesses_ofPrimary he (he.completes F hF)
  | .member he hd hn, F, hF => by
    simp only [List.length_append, List.length_cons, List.length_nil] at hF
    exact Accesses.member (he.completes F (by omega)) hd hn
  | .call he ho ha, F, hF => by
    simp only [List.length_append, List.length_cons] at hF
    exact Accesses.call (he.completes F (by omega)) ho fun fuel hfuel => (ha.completes F fuel (by omega) hfuel).1
  | .ofAccess he, F, hF => fun _ hfuel => reads_ofAccess (he.completes F hF) hfuel
  | .not hb he, F, hF => by
    intro fuel hfuel
    rw [List.length_cons] at hF hfuel
    obtain ⟨fuel, rfl⟩ : ∃ n, fuel = n + 1 := Nat.exists_eq_add_one.mpr (by omega)
    exact reads_not hb (he.completes F (by omega) fuel (by omega))
  | .ofUnary he, F, hF => reads_ofUnary (he.completes F hF (F + 1) (by omega))
  | .compare hl hs hr, F, hF => by
    rw [List.length_append, List.length_cons] at hF
    exact reads_compare (hl.completes F (by omega) (F + 1) (by omega)) hs
      (hr.completes F (by omega) (F + 1) (by omega))
  | .ofEquality he, F, hF => chains_one he.ne_nil (he.completes F hF)
  | .both hl hs hr, F, hF => by
    rw [List.length_append, List.length_cons] at hF
    exact Chains.more (hl.completes F (by omega)) hs (by decide) (hr.completes F (by omega))
  | .ofBoth he, F, hF => by
    have hboth : Chains (equalityOf F) .both .and .equality _ _ := he.completes F hF
    exact chains_one he.ne_nil (hboth.reads (by decide) (by decide) (by omega))
  | .either hl hs hr, F, hF => by
    rw [List.length_append, List.length_cons] at hF
    have hboth : Chains (equalityOf F) .both .and .equality _ _ := hr.completes F (by omega)
    exact Chains.more (hl.completes F (by omega)) hs (by decide) (hboth.reads (by decide) (by decide) (by omega))

theorem Grammar.IsArgs.completes {ls : List Lexeme} {es : List Expr} :
    IsArgs ls es → ∀ F fuel, ls.length ≤ F → ls.length ≤ fuel →
      Reads (parenthesizedList (expr F) fuel) ls es (fun _ => True) ∧
        (es ≠ [] → Reads (commaList (expr F) fuel) ls es fun _ => True)
  | .nil hc, _, fuel, _, _ => ⟨reads_noArguments hc fuel, fun h => (h rfl).elim⟩
  | .last he hc, F, fuel, hF, hfuel => by
    rw [List.length_append, List.length_singleton] at hF hfuel
    obtain ⟨fuel, rfl⟩ : ∃ n, fuel = n + 1 := Nat.exists_eq_add_one.mpr (by omega)
    have hlist := reads_lastArgument (F := F) (Completes.reads he.completes (by omega)) hc fuel
    exact ⟨reads_arguments he hlist, fun _ => hlist⟩
  | .cons he hc ha, F, fuel, hF, hfuel => by
    rw [List.length_append, List.length_cons] at hF hfuel
    obtain ⟨fuel, rfl⟩ : ∃ n, fuel = n + 1 := Nat.exists_eq_add_one.mpr (by omega)
    have hmore := (ha.completes F fuel (by omega) (by omega)).2 (List.cons_ne_nil _ _)
    have hlist := reads_moreArguments (Completes.reads he.completes (by omega)) hc hmore
    exact ⟨reads_arguments he hlist, fun _ => hlist⟩

end

/-- The tokens that spell an expression are read as that expression. -/
theorem reads_expr {ls : List Lexeme} {e : Expr} (he : IsExpr .either ls e) (hF : ls.length < F) :
    Reads (expr F) ls e (Stops .either) :=
  Completes.reads he.completes hF

end

end Stencil.Unit
