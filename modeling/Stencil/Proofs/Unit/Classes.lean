import Stencil.Proofs.Unit.Statements

/-! Units with pragmas, and how they are read.

Pragmas may stand before the namespaces, the class, its members and its closing brace, and at the end. A member takes
the place that is pending before it, and the class starts with none. -/

namespace Stencil.Unit.Marked

open Grammar (IsSymbol IsWord IsName IsString IsExpr IsPath IsNames IsParams IsVisibility IsSpace stops_symbol)

/-- A member of a class after its pragmas. -/
inductive IsMember : Pending → List Lexeme → Member → Pending → Prop
  | layout {q r : Pending} {ms : List Lexeme} {k l s : Lexeme} {key : String} (hm : Marks q ms r)
      (hk : IsWord "layout" k) (hl : IsString key l) (hs : IsSymbol .semicolon s) :
      IsMember q (ms ++ [k, l, s]) (.layout key false k.pos) none
  | defaultLayout {q r : Pending} {ms : List Lexeme} {d k l s : Lexeme} {key : String} (hm : Marks q ms r)
      (hd : IsWord "default" d) (hk : IsWord "layout" k) (hl : IsString key l) (hs : IsSymbol .semicolon s) :
      IsMember q (ms ++ [d, k, l, s]) (.layout key true d.pos) none
  | function {q r : Pending} {ms ps ls : List Lexeme} {k l o a s : Lexeme} {n : Named} {params : List Named} {e : Expr}
      (hm : Marks q ms r) (hk : IsWord "function" k) (hn : IsName n l) (ho : IsSymbol .openParen o)
      (hp : IsParams ps params) (ha : IsSymbol .arrow a) (he : IsExpr .either ls e) (hs : IsSymbol .semicolon s) :
      IsMember q (ms ++ k :: l :: o :: (ps ++ a :: (ls ++ [s]))) (.function ⟨n, params, e, r⟩) none
  | sectionDecl {q r t : Pending} {ms bs : List Lexeme} {k l : Lexeme} {name : String} {body : List Stmt}
      (hm : Marks q ms r) (hk : IsWord "section" k) (hl : IsString name l) (hb : IsBlock none bs body t) :
      IsMember q (ms ++ k :: l :: bs) (.sectionDecl ⟨⟨name, k.pos⟩, body⟩) t
  | execute {q r t : Pending} {ms bs : List Lexeme} {k : Lexeme} {body : List Stmt} (hm : Marks q ms r)
      (hk : IsWord "execute" k) (hb : IsBlock none bs body t) : IsMember q (ms ++ k :: bs) (.execute body k.pos) t

/-- Members, one after another. -/
inductive IsMembers : Pending → List Lexeme → List Member → Pending → Prop
  | nil {q : Pending} : IsMembers q [] [] q
  | cons {q r t : Pending} {ls rs : List Lexeme} {m : Member} {ms : List Member} (hm : IsMember q ls m r)
      (hr : IsMembers r rs ms t) : IsMembers q (ls ++ rs) (m :: ms) t

/-- A class after its pragmas. -/
inductive IsClass : Pending → List Lexeme → ClassDecl → Pending → Prop
  | mk {q r r' t : Pending} {ps vs bs ls ms ps' : List Lexeme} {k l c lt gt o e : Lexeme} {n base model : Named}
      {members : List Member} (hp : Marks q ps r) (hv : IsVisibility vs) (hk : IsWord "class" k) (hn : IsName n l)
      (hc : IsSymbol .colon c) (hb : IsPath bs base) (hl : IsSymbol .less lt) (hm : IsPath ls model)
      (hg : IsSymbol .greater gt) (ho : IsSymbol .openBrace o) (hs : IsMembers none ms members r')
      (hp' : Marks r' ps' t) (he : IsSymbol .closeBrace e) :
      IsClass q (ps ++ (vs ++ k :: l :: c :: (bs ++ lt :: (ls ++ gt :: o :: (ms ++ (ps' ++ [e]))))))
        ⟨n, base, model, members⟩ t

/-- The namespaces that a unit uses, each after its pragmas. -/
inductive IsUsings : Pending → List Lexeme → List Named → Pending → Prop
  | nil {q : Pending} : IsUsings q [] [] q
  | cons {q r t : Pending} {ms ls rs : List Lexeme} {k s : Lexeme} {n : Named} {ns : List Named} (hm : Marks q ms r)
      (hk : IsWord "using" k) (hp : IsPath ls n) (hs : IsSymbol .semicolon s) (hr : IsUsings r rs ns t) :
      IsUsings q (ms ++ k :: (ls ++ s :: rs)) (n :: ns) t

/-- A unit. -/
inductive IsUnit : List Lexeme → Tree → Prop
  | mk {ms ls us cs ms' : List Lexeme} {q r t u : Pending} {space : Option String} {usings : List Named}
      {decl : ClassDecl} (hm : Marks none ms q) (hs : IsSpace ls space) (hu : IsUsings q us usings r)
      (hc : IsClass r cs decl t) (hm' : Marks t ms' u) :
      IsUnit (ms ++ (ls ++ (us ++ (cs ++ ms')))) ⟨space, usings, decl⟩

/-- The tokens of a unit stand around those of its members, and the members make it a tree. -/
inductive Framed (ps : List Lexeme) : List Lexeme → (List Member → Tree) → Prop
  | mk {ss us ms vs bs ls : List Lexeme} {q : Pending} {k l c lt gt o e : Lexeme} {space : Option String}
      {usings : List Named} {n base model : Named} (hs : IsSpace ss space) (hu : IsUsings none us usings none)
      (hm : Marks none ms q) (hv : IsVisibility vs) (hk : IsWord "class" k) (hn : IsName n l) (hc : IsSymbol .colon c)
      (hb : IsPath bs base) (hl : IsSymbol .less lt) (hmodel : IsPath ls model) (hg : IsSymbol .greater gt)
      (ho : IsSymbol .openBrace o) (he : IsSymbol .closeBrace e) :
      Framed ps (ss ++ (us ++ (ms ++ (vs ++ k :: l :: c :: (bs ++ lt :: (ls ++ gt :: o :: (ps ++ [e])))))))
        fun members => ⟨space, usings, ⟨n, base, model, members⟩⟩

/-- A unit is framed members. -/
theorem Framed.isUnit {ps ls : List Lexeme} {tree : List Member → Tree} {members : List Member} (h : Framed ps ls tree)
    (hm : IsMembers none ps members none) : IsUnit ls (tree members) := by
  cases h with
  | mk hs hu hmarks hv hk hn hc hb hl hmodel hg ho he =>
    have hclass := IsClass.mk hmarks hv hk hn hc hb hl hmodel hg ho hm .nil he
    simpa using IsUnit.mk (.nil (q := none)) hs hu hclass .nil

/-! ### Names -/

section
variable {l : Lexeme} {ls rest : List Lexeme} {f : SourcePos} {q : Pending} {fuel : Nat}

theorem pathRest_stop {n : Named} {s : Symbol} (hl : IsSymbol s l) (hs : (s == .dot) = false) :
    pathRest (fuel + 1) n ⟨l :: rest, f, q⟩ = .ok (n, ⟨l :: rest, f, q⟩) := by
  rw [pathRest, Input.atSymbol_cons hl, hs]
  rfl

/-- The names of a path are read, and then those that go on with it. -/
theorem IsPath.continues {n : Named} (h : IsPath ls n) : ∃ d, d < ls.length ∧ ∀ fuel rest f q,
    path (fuel + d) ⟨ls ++ rest, f, q⟩ = pathRest fuel n ⟨rest, f, q⟩ := by
  induction h with
  | @name l n hn =>
    refine ⟨0, Nat.zero_lt_one, fun fuel rest f q => ?_⟩
    rw [path, List.singleton_append, name_cons hn]
    rfl
  | @dot ls d l m n _ hd hn ih =>
    obtain ⟨k, hk, ih⟩ := ih
    refine ⟨k + 1, by rw [List.length_append]; exact Nat.lt_add_right 1 (Nat.succ_lt_succ hk), fun fuel rest f q => ?_⟩
    rw [List.append_assoc, show fuel + (k + 1) = fuel + 1 + k by omega, ih]
    show pathRest (fuel + 1) m ⟨d :: l :: rest, f, q⟩ = _
    rw [pathRest, Input.atSymbol_cons hd]
    show (name ⟨l :: rest, f, q⟩ >>= _) = _
    rw [name_cons hn]
    rfl

theorem path_reads {n : Named} {s : Symbol} (h : IsPath ls n) (hl : IsSymbol s l) (hs : (s == .dot) = false)
    (hfuel : ls.length ≤ fuel) : path fuel ⟨ls ++ l :: rest, f, q⟩ = .ok (n, ⟨l :: rest, f, q⟩) := by
  obtain ⟨d, hd, hpath⟩ := IsPath.continues h
  obtain ⟨k, rfl⟩ := Nat.exists_eq_add_of_lt (Nat.lt_of_lt_of_le hd hfuel)
  rw [show d + k + 1 = k + 1 + d by omega, hpath]
  exact pathRest_stop hl hs

theorem names_reads {c : Lexeme} {ns : List Named} (h : IsNames ls ns) (hc : IsSymbol .closeParen c)
    (hfuel : ls.length ≤ fuel) : commaList name fuel ⟨ls ++ c :: rest, f, q⟩ = .ok (ns, ⟨rest, f, q⟩) := by
  induction h generalizing fuel with
  | one hn =>
    obtain ⟨fuel, rfl⟩ := Nat.exists_eq_add_one.mpr (Nat.lt_of_lt_of_le Nat.zero_lt_one hfuel)
    rw [commaList, List.singleton_append, name_cons hn]
    show (if (⟨c :: rest, f, q⟩ : Input).atSymbol .closeParen then _ else _) = _
    rw [Input.atSymbol_cons hc]
    rfl
  | @cons l d ls n ns hn hd _ ih =>
    rw [List.length_cons, List.length_cons] at hfuel
    obtain ⟨fuel, rfl⟩ := Nat.exists_eq_add_one.mpr (Nat.lt_of_lt_of_le (Nat.succ_pos _) hfuel)
    rw [commaList, List.cons_append, List.cons_append, name_cons hn]
    show (if (⟨d :: (ls ++ c :: rest), f, q⟩ : Input).atSymbol .closeParen then _ else _) = _
    rw [Input.atSymbol_cons hd]
    show (Input.expect .comma ⟨d :: (ls ++ c :: rest), f, q⟩ >>= _) = _
    rw [Input.expect_cons hd]
    show (commaList name fuel ⟨ls ++ c :: rest, f, q⟩ >>= _) = _
    rw [ih (by omega)]
    rfl

theorem params_reads {ns : List Named} (h : IsParams ls ns) (hfuel : ls.length ≤ fuel) :
    parenthesizedList name fuel ⟨ls ++ rest, f, q⟩ = .ok (ns, ⟨rest, f, q⟩) := by
  cases h with
  | nil hc =>
    rw [List.singleton_append, parenthesizedList, Input.atSymbol_cons hc]
    rfl
  | @names ls c ns hs hc =>
    rw [List.length_append] at hfuel
    have hstart : ∀ rest : List Lexeme, (⟨ls ++ rest, f, q⟩ : Input).atSymbol .closeParen = false := by
      intro rest
      cases hs with
      | one hn | cons hn => exact atSymbol_word (congrArg Lexeme.token hn)
    rw [List.append_assoc, List.singleton_append, parenthesizedList, hstart]
    exact names_reads hs hc (Nat.le_trans (Nat.le_add_right _ _) hfuel)

end

/-! ### Members -/

section
variable {fuel : Nat} {q r t : Pending} {k l : Lexeme} {ls ms rest : List Lexeme} {f pos : SourcePos}

theorem member_word {w : String} (rest : List Lexeme) : member fuel ⟨⟨.name w, pos⟩ :: rest, f, q⟩ =
    let j : Input := ⟨rest, f, none⟩
    match w with
    | "layout" => layout false pos j
    | "default" => j.expectWord "layout" >>= layout true pos
    | "function" => function fuel q j
    | "section" => do
      let (s, j) ← string j
      let (body, j) ← block fuel j
      return (.sectionDecl ⟨⟨s, pos⟩, body⟩, j)
    | "execute" => do
      let (body, j) ← block fuel j
      return (.execute body pos, j)
    | _ => throw (pos, .unknownMember w) := by
  unfold member
  rfl

theorem layout_reads {inherited : Bool} {key : String} {s : Lexeme} (hl : IsString key l) (hs : IsSymbol .semicolon s) :
    layout inherited pos ⟨l :: s :: rest, f, q⟩ = .ok (.layout key inherited pos, ⟨rest, f, q⟩) := by
  rw [layout, string_cons hl]
  show (Input.expect .semicolon ⟨s :: rest, f, q⟩ >>= _) = _
  rw [Input.expect_cons hs]
  rfl

/-- The member at the front is read, once its pragmas have been taken. -/
theorem IsMember.reads {ls : List Lexeme} {m : Member} (h : IsMember q ls m t) (hfuel : ls.length ≤ fuel)
    (rest : List Lexeme) (f : SourcePos) : ∃ ms r k w rs, ls = ms ++ k :: rs ∧ Marks q ms r ∧ IsWord w k ∧
      member fuel ⟨k :: (rs ++ rest), f, r⟩ = .ok (m, ⟨rest, f, t⟩) := by
  cases h with
  | @layout r ms k l s key hm hk hl hs =>
    refine ⟨ms, r, k, _, _, rfl, hm, hk, ?_⟩
    obtain ⟨token, pos⟩ := k
    cases hk
    rw [member_word]
    exact layout_reads hl hs
  | @defaultLayout r ms d k l s key hm hd hk hl hs =>
    refine ⟨ms, r, d, _, _, rfl, hm, hd, ?_⟩
    obtain ⟨token, pos⟩ := d
    cases hd
    rw [member_word]
    show (Input.expectWord "layout" ⟨k :: l :: s :: rest, f, none⟩ >>= _) = _
    rw [expectWord_cons hk]
    exact layout_reads hl hs
  | @function r ms ps ls k l o a s n params e hm hk hn ho hp ha he hs =>
    -- The parameters and the body are each shorter than the member, so the fuel is enough for them.
    simp only [List.length_append, List.length_cons] at hfuel
    refine ⟨ms, r, k, _, _, rfl, hm, hk, ?_⟩
    have hread := reads_expr he (F := fuel) (by omega) (s :: rest) f none (stops_symbol hs (by decide) rest)
    obtain ⟨token, pos⟩ := k
    cases hk
    rw [show l :: o :: (ps ++ a :: (ls ++ [s])) ++ rest = l :: o :: (ps ++ a :: (ls ++ s :: rest)) by simp, member_word]
    show Unit.function fuel r ⟨l :: o :: (ps ++ a :: (ls ++ s :: rest)), f, none⟩ = _
    rw [Unit.function, name_cons hn]
    show (Input.expect .openParen ⟨o :: (ps ++ a :: (ls ++ s :: rest)), f, none⟩ >>= _) = _
    rw [Input.expect_cons ho]
    show (parenthesizedList name fuel ⟨ps ++ a :: (ls ++ s :: rest), f, none⟩ >>= _) = _
    rw [params_reads hp (by omega)]
    show (Input.expect .arrow ⟨a :: (ls ++ s :: rest), f, none⟩ >>= _) = _
    rw [Input.expect_cons ha]
    show (expr fuel ⟨ls ++ s :: rest, f, none⟩ >>= _) = _
    rw [hread]
    show (Input.expect .semicolon ⟨s :: rest, f, none⟩ >>= _) = _
    rw [Input.expect_cons hs]
    rfl
  | @sectionDecl r _ ms bs k l name body hm hk hl hb =>
    simp only [List.length_append, List.length_cons] at hfuel
    refine ⟨ms, r, k, _, _, rfl, hm, hk, ?_⟩
    obtain ⟨token, pos⟩ := k
    cases hk
    rw [member_word]
    show (string ⟨l :: (bs ++ rest), f, none⟩ >>= _) = _
    rw [string_cons hl]
    show (block fuel ⟨bs ++ rest, f, none⟩ >>= _) = _
    rw [hb.reads (by omega) rest f]
    rfl
  | @execute r _ ms bs k body hm hk hb =>
    simp only [List.length_append, List.length_cons] at hfuel
    refine ⟨ms, r, k, _, _, rfl, hm, hk, ?_⟩
    obtain ⟨token, pos⟩ := k
    cases hk
    rw [member_word]
    show (block fuel ⟨bs ++ rest, f, none⟩ >>= _) = _
    rw [hb.reads (by omega) rest f]
    rfl

theorem IsMembers.reads {q r t : Pending} {ls ps : List Lexeme} {ms : List Member} {c : Lexeme}
    (h : IsMembers q ls ms r) (hp : Marks r ps t) (hc : IsSymbol .closeBrace c) (hfuel : ls.length < fuel)
    (rest : List Lexeme) (f : SourcePos) :
    members fuel ⟨ls ++ (ps ++ c :: rest), f, q⟩ = .ok (ms, ⟨rest, f, t⟩) := by
  induction h generalizing fuel with
  | nil =>
    obtain ⟨fuel, rfl⟩ := Nat.exists_eq_add_one.mpr (Nat.zero_lt_of_lt hfuel)
    rw [List.nil_append, members, hp.takePragmas_cons (noPragma_symbol hc), Input.atSymbol_cons hc]
    rfl
  | @cons q r t ls rs m ms hm hr ih =>
    rw [List.length_append] at hfuel
    obtain ⟨fuel, rfl⟩ := Nat.exists_eq_add_one.mpr (Nat.zero_lt_of_lt hfuel)
    have hlength : ls.length ≤ fuel + 1 := by omega
    obtain ⟨ps', r', k, w, rs', rfl, hp', hk, hread⟩ := hm.reads hlength (rs ++ (ps ++ c :: rest)) f
    rw [List.length_append, List.length_cons] at hfuel
    rw [show ps' ++ k :: rs' ++ rs ++ (ps ++ c :: rest) = ps' ++ k :: (rs' ++ (rs ++ (ps ++ c :: rest))) by simp, members,
      hp'.takePragmas_cons (noPragma_word hk), atSymbol_word hk]
    show (member (fuel + 1) ⟨k :: (rs' ++ (rs ++ (ps ++ c :: rest))), f, r'⟩ >>= _) = _
    rw [hread]
    show (members fuel ⟨rs ++ (ps ++ c :: rest), f, r⟩ >>= _) = _
    rw [ih hp (by omega)]
    rfl

end

/-! ### Units -/

section
variable {fuel : Nat} {q r t : Pending} {cs us ls rest : List Lexeme} {decl : ClassDecl} {ns : List Named} {f : SourcePos}

/-- Before a class, no namespace is given and none is used. -/
theorem class_atWord {ps vs : List Lexeme} {k : Lexeme} (hp : Marks q ps r) (hv : IsVisibility vs) (hk : IsWord "class" k)
    (rest : List Lexeme) (f : SourcePos) {w : String} (hw : w ∉ ["internal", "public", "class"]) :
    (⟨ps ++ (vs ++ k :: rest), f, q⟩ : Input).takePragmas.atWord w = false := by
  have hword : ∀ w' ∈ ["internal", "public", "class"], ∀ {l rs}, IsWord w' l →
      (⟨l :: rs, f, r⟩ : Input).takePragmas.atWord w = false := by
    intro w' hw' l rs hl
    rw [takePragmas_noPragma (noPragma_word hl), atWord_cons hl, beq_eq_false_iff_ne]
    rintro rfl
    exact hw hw'
  rw [hp.takePragmas]
  cases hv with
  | none => exact hword "class" (by decide) hk
  | hidden hl => exact hword "internal" (by decide) hl
  | visible hl => exact hword "public" (by decide) hl

theorem IsClass.atWord (h : IsClass q cs decl t) (rest : List Lexeme) (f : SourcePos) {w : String}
    (hw : w ∉ ["internal", "public", "class"]) : (⟨cs ++ rest, f, q⟩ : Input).takePragmas.atWord w = false := by
  cases h with
  | mk hp hv hk =>
    rw [List.append_assoc, List.append_assoc, List.cons_append]
    exact class_atWord hp hv hk _ f hw

/-- Reads a class behind the word that may stand before it. -/
def bareClass (fuel : Nat) : Reader ClassDecl := fun i => do
  let i ← i.expectWord "class"
  let (n, i) ← name i
  let i ← i.expect .colon
  let (base, i) ← path fuel i
  let i ← i.expect .less
  let (model, i) ← path fuel i
  let i ← i.expect .greater
  let i ← i.expect .openBrace
  let (ms, i) ← Unit.members fuel i
  return (⟨n, base, model, ms⟩, i)

theorem classDecl_eq (fuel : Nat) (i : Input) :
    classDecl fuel i =
      let i : Input := { i.takePragmas with pending := none }
      bareClass fuel (if i.atWord "internal" || i.atWord "public" then i.next else i) := rfl

/-- The header of a class is read, and then its members. -/
theorem classDecl_header {ps vs bs : List Lexeme} {k l c lt gt o : Lexeme} {n base model : Named} (hp : Marks q ps r)
    (hv : IsVisibility vs) (hk : IsWord "class" k) (hn : IsName n l) (hc : IsSymbol .colon c) (hb : IsPath bs base)
    (hl : IsSymbol .less lt) (hm : IsPath ls model) (hg : IsSymbol .greater gt) (ho : IsSymbol .openBrace o)
    (hbase : bs.length ≤ fuel) (hmodel : ls.length ≤ fuel) (rest : List Lexeme) (f : SourcePos) :
    classDecl fuel ⟨ps ++ (vs ++ k :: l :: c :: (bs ++ lt :: (ls ++ gt :: o :: rest))), f, q⟩ =
      members fuel ⟨rest, f, none⟩ >>= fun r => pure (⟨n, base, model, r.1⟩, r.2) := by
  have hclass : ∀ i : Input, i = ⟨k :: l :: c :: (bs ++ lt :: (ls ++ gt :: o :: rest)), f, none⟩ →
      bareClass fuel i = members fuel ⟨rest, f, none⟩ >>= fun r => pure (⟨n, base, model, r.1⟩, r.2) := by
    rintro i rfl
    rw [bareClass, expectWord_cons hk]
    show (name ⟨l :: c :: (bs ++ lt :: (ls ++ gt :: o :: rest)), f, none⟩ >>= _) = _
    rw [name_cons hn]
    show (Input.expect .colon ⟨c :: (bs ++ lt :: (ls ++ gt :: o :: rest)), f, none⟩ >>= _) = _
    rw [Input.expect_cons hc]
    show (path fuel ⟨bs ++ lt :: (ls ++ gt :: o :: rest), f, none⟩ >>= _) = _
    rw [path_reads hb hl rfl hbase]
    show (Input.expect .less ⟨lt :: (ls ++ gt :: o :: rest), f, none⟩ >>= _) = _
    rw [Input.expect_cons hl]
    show (path fuel ⟨ls ++ gt :: o :: rest, f, none⟩ >>= _) = _
    rw [path_reads hm hg rfl hmodel]
    show (Input.expect .greater ⟨gt :: o :: rest, f, none⟩ >>= _) = _
    rw [Input.expect_cons hg]
    show (Input.expect .openBrace ⟨o :: rest, f, none⟩ >>= _) = _
    rw [Input.expect_cons ho]
    rfl
  -- A word that tells who sees the class may stand before it, and is passed over.
  rw [classDecl_eq, hp.takePragmas]
  refine hclass _ ?_
  cases hv with
  | none =>
    rw [List.nil_append, takePragmas_noPragma (noPragma_word hk)]
    show (if (_ : Input).atWord "internal" || (_ : Input).atWord "public" then _ else _) = _
    rw [atWord_cons hk, atWord_cons hk]
    rfl
  | @hidden v hv | @visible v hv =>
    rw [List.singleton_append, takePragmas_noPragma (noPragma_word hv)]
    show (if (_ : Input).atWord "internal" || (_ : Input).atWord "public" then _ else _) = _
    rw [atWord_cons hv, atWord_cons hv]
    rfl

theorem IsClass.reads (h : IsClass q cs decl t) (hfuel : cs.length < fuel) (rest : List Lexeme) (f : SourcePos) :
    classDecl fuel ⟨cs ++ rest, f, q⟩ = .ok (decl, ⟨rest, f, t⟩) := by
  cases h with
  | @mk _ r _ ps vs bs ls ms ps' k l c lt gt o e n base model members hp hv hk hn hc hb hl hm hg ho hs hp' he =>
    simp only [List.length_append, List.length_cons] at hfuel
    have hlengths : bs.length ≤ fuel ∧ ls.length ≤ fuel ∧ ms.length < fuel := by omega
    have hlist : ps ++ (vs ++ k :: l :: c :: (bs ++ lt :: (ls ++ gt :: o :: (ms ++ (ps' ++ [e]))))) ++ rest =
        ps ++ (vs ++ k :: l :: c :: (bs ++ lt :: (ls ++ gt :: o :: (ms ++ (ps' ++ e :: rest))))) := by simp
    rw [hlist, classDecl_header hp hv hk hn hc hb hl hm hg ho hlengths.1 hlengths.2.1,
      hs.reads hp' he hlengths.2.2 rest f]
    rfl

theorem IsUsings.reads (h : IsUsings q us ns r) (hrest : (⟨rest, f, r⟩ : Input).takePragmas.atWord "using" = false)
    (hfuel : us.length < fuel) : usings fuel ⟨us ++ rest, f, q⟩ = .ok (ns, (⟨rest, f, r⟩ : Input).takePragmas) := by
  induction h generalizing fuel with
  | nil =>
    obtain ⟨fuel, rfl⟩ := Nat.exists_eq_add_one.mpr (Nat.zero_lt_of_lt hfuel)
    rw [usings, List.nil_append, hrest]
    rfl
  | @cons q r t ms ls rs k s n ns hm hk hp hs _ ih =>
    obtain ⟨fuel, rfl⟩ := Nat.exists_eq_add_one.mpr (Nat.zero_lt_of_lt hfuel)
    simp only [List.length_append, List.length_cons] at hfuel
    rw [show ms ++ k :: (ls ++ s :: rs) ++ rest = ms ++ k :: (ls ++ s :: (rs ++ rest)) by simp, usings,
      hm.takePragmas_cons (noPragma_word hk), atWord_cons hk]
    show (path fuel ⟨ls ++ s :: (rs ++ rest), f, r⟩ >>= _) = _
    rw [path_reads hp hs rfl (by omega)]
    show (Input.expect .semicolon ⟨s :: (rs ++ rest), f, r⟩ >>= _) = _
    rw [Input.expect_cons hs]
    show (usings fuel ⟨rs ++ rest, f, r⟩ >>= _) = _
    rw [ih hrest (by omega)]
    rfl

/-- Pragmas that have been taken before are taken before the namespaces, too. -/
theorem usings_takePragmas (i : Input) : usings (fuel + 1) i.takePragmas = usings (fuel + 1) i := by
  rw [usings, takePragmas_takePragmas, usings]

theorem classDecl_takePragmas (i : Input) : classDecl fuel i.takePragmas = classDecl fuel i := by
  rw [classDecl, takePragmas_takePragmas, classDecl]

/-- A unit does not start with a namespace if none is given. -/
theorem IsUsings.atWord (hu : IsUsings q us ns r)
    (hrest : (⟨rest, f, r⟩ : Input).takePragmas.atWord "namespace" = false) :
    (⟨us ++ rest, f, q⟩ : Input).takePragmas.atWord "namespace" = false := by
  cases hu with
  | nil => exact hrest
  | cons hm hk =>
    rw [List.append_assoc, List.cons_append, hm.takePragmas_cons (noPragma_word hk), atWord_cons hk]
    rfl

theorem space_reads {space : Option String} (hs : IsSpace ls space) (hfuel : ls.length ≤ fuel)
    (hrest : space = none → (⟨rest, f, q⟩ : Input).takePragmas.atWord "namespace" = false) :
    ∃ i, Unit.space fuel (⟨ls ++ rest, f, q⟩ : Input).takePragmas = .ok (space, i) ∧
      i.takePragmas = (⟨rest, f, q⟩ : Input).takePragmas := by
  cases hs with
  | none =>
    refine ⟨_, ?_, takePragmas_takePragmas _⟩
    rw [Unit.space, List.nil_append, hrest rfl]
    rfl
  | @some k s ls n hk hp hs =>
    simp only [List.length_append, List.length_cons] at hfuel
    refine ⟨⟨rest, f, q⟩, ?_, rfl⟩
    rw [show k :: ls ++ [s] ++ rest = k :: (ls ++ s :: rest) by simp, takePragmas_noPragma (noPragma_word hk), Unit.space,
      atWord_cons hk]
    show (path fuel ⟨ls ++ s :: rest, f, q⟩ >>= _) = _
    rw [path_reads hp hs rfl (by omega)]
    show (Input.expect .semicolon ⟨s :: rest, f, q⟩ >>= _) = _
    rw [Input.expect_cons hs]
    rfl

/-- The tokens of a unit are read as the unit that they spell. -/
theorem IsUnit.reads {tree : Tree} (h : IsUnit ls tree) : Tree.ofLexemes ls = .ok tree := by
  cases h with
  | @mk ms ss us cs ms' q r t u space usings decl hm hs hu hc hm' =>
    generalize hf : finishOf (ms ++ (ss ++ (us ++ (cs ++ ms')))) = f
    generalize hn : (ms ++ (ss ++ (us ++ (cs ++ ms')))).length = n
    simp only [List.length_append] at hn
    have hlengths : ss.length ≤ n + 1 ∧ us.length < n + 1 ∧ cs.length < n + 1 := by omega
    obtain ⟨i, hspace, hi⟩ := space_reads hs hlengths.1 fun _ => hu.atWord (hc.atWord ms' f (by decide))
    have husings := hu.reads (hc.atWord ms' f (by decide)) hlengths.2.1
    have hclass := hc.reads hlengths.2.2 ms' f
    have hend : (⟨ms', f, t⟩ : Input).takePragmas = ⟨[], f, u⟩ := by
      rw [← List.append_nil ms', hm'.takePragmas]
      rfl
    rw [← usings_takePragmas, ← hi, usings_takePragmas] at husings
    rw [← classDecl_takePragmas] at hclass
    rw [Tree.ofLexemes, hf, unit]
    dsimp only
    rw [List.length_append, List.length_append, List.length_append, List.length_append, hn, hm.takePragmas, hspace]
    show (Unit.usings (n + 1) i >>= _).map _ = _
    rw [husings]
    show (classDecl (n + 1) (⟨cs ++ ms', f, r⟩ : Input).takePragmas >>= _).map _ = _
    rw [hclass]
    show Except.map _ (if !(⟨ms', f, t⟩ : Input).takePragmas.lexemes.isEmpty then _ else _) = _
    rw [hend]
    rfl

/-- A unit is read only if its members are. -/
theorem Framed.members_read {ps : List Lexeme} {tree : List Member → Tree} {t : Tree} (h : Framed ps ls tree)
    (hread : Tree.ofLexemes ls = .ok t) :
    ∃ n e r, ps.length < n ∧ IsSymbol .closeBrace e ∧ members n ⟨ps ++ [e], finishOf ls, none⟩ = .ok r := by
  cases h with
  | @mk ss us ms vs bs mos q k l c lt gt o e space usings n base model hs hu hm hv hk hn hc hb hl hmodel hg ho he =>
    generalize hls : ss ++ (us ++ (ms ++ (vs ++ k :: l :: c :: (bs ++ lt :: (mos ++ gt :: o :: (ps ++ [e])))))) = ls at hread ⊢
    generalize hlen : ls.length = n at hread
    generalize hf : finishOf ls = f at hread ⊢
    have hlength := congrArg List.length hls
    simp only [List.length_append, List.length_cons] at hlength
    have hlengths : ss.length ≤ n + 1 ∧ us.length < n + 1 ∧ bs.length ≤ n + 1 ∧ mos.length ≤ n + 1 ∧ ps.length < n + 1 := by
      omega
    have hclass := fun {w : String} (hw : w ∉ ["internal", "public", "class"]) =>
      class_atWord hm hv hk (l :: c :: (bs ++ lt :: (mos ++ gt :: o :: (ps ++ [e])))) f hw
    obtain ⟨i, hspace, hi⟩ := space_reads hs hlengths.1 fun _ => hu.atWord (hclass (by decide))
    have husings := hu.reads (hclass (by decide)) hlengths.2.1
    have hheader := classDecl_header hm hv hk hn hc hb hl hmodel hg ho hlengths.2.2.1 hlengths.2.2.2.1 (ps ++ [e]) f
    rw [← usings_takePragmas, ← hi, usings_takePragmas] at husings
    rw [← classDecl_takePragmas] at hheader
    rw [Tree.ofLexemes, unit] at hread
    dsimp only at hread
    rw [hlen, hf, ← hls, hspace] at hread
    change (Unit.usings (n + 1) i >>= _).map _ = _ at hread
    rw [husings] at hread
    change (classDecl (n + 1) _ >>= _).map _ = _ at hread
    rw [hheader] at hread
    -- All up to the members is read as itself, so a failure of the members would be one of the unit.
    cases hmembers : members (n + 1) ⟨ps ++ [e], f, none⟩ with
    | error found =>
      rw [hmembers] at hread
      cases hread
    | ok r => exact ⟨n + 1, e, r, hlengths.2.2.2.2, he, hmembers⟩

end

end Stencil.Unit.Marked
