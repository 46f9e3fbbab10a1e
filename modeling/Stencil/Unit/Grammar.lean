import Stencil.Unit.Parser

/-!
The grammar of units, as relations between tokens and the trees they spell. No token is a pragma, and no
statement or function has a place in the template. Every level of expressions takes in the one below it, so
that a token list spells an expression in one way.
-/

namespace Stencil.Unit.Grammar

/-- A symbol at some place. -/
def IsSymbol (s : Symbol) (l : Lexeme) : Prop := l.token = .symbol s

/-- A word at some place. -/
def IsWord (word : String) (l : Lexeme) : Prop := l.token = .name word

/-- A name with its place. -/
def IsName (n : Named) (l : Lexeme) : Prop := l = ⟨.name n.name, n.pos⟩

/-- A string literal at some place. -/
def IsString (s : String) (l : Lexeme) : Prop := l.token = .string s

/-- Names joined by dots. -/
inductive IsPath : List Lexeme → Named → Prop
  | name {l : Lexeme} {n : Named} (hn : IsName n l) : IsPath [l] n
  | dot {ls : List Lexeme} {d l : Lexeme} {m n : Named} (hp : IsPath ls m) (hd : IsSymbol .dot d)
      (hn : IsName n l) : IsPath (ls ++ [d, l]) ⟨m.name ++ "." ++ n.name, m.pos⟩

/-- Names with commas between them. -/
inductive IsNames : List Lexeme → List Named → Prop
  | one {l : Lexeme} {n : Named} (hn : IsName n l) : IsNames [l] [n]
  | cons {l c : Lexeme} {ls : List Lexeme} {n : Named} {ns : List Named} (hn : IsName n l)
      (hc : IsSymbol .comma c) (hs : IsNames ls ns) : IsNames (l :: c :: ls) (n :: ns)

/-- Parameters up to the closing parenthesis. -/
inductive IsParams : List Lexeme → List Named → Prop
  | nil {c : Lexeme} (hc : IsSymbol .closeParen c) : IsParams [c] []
  | names {ls : List Lexeme} {c : Lexeme} {ns : List Named} (hs : IsNames ls ns) (hc : IsSymbol .closeParen c) :
      IsParams (ls ++ [c]) ns

/-! ### Expressions -/

/-- How tightly an expression binds, tightest first. -/
inductive Level
  | primary
  | access
  | unary
  | equality
  | both
  | either

/-- A name or a literal. -/
inductive IsAtom : Lexeme → Expr → Prop
  | word {n : String} {p : SourcePos} {v : Json} (hv : wordLiteral? n = some v) :
      IsAtom ⟨.name n, p⟩ (.literal v p)
  | name {n : String} {p : SourcePos} (hn : wordLiteral? n = none) : IsAtom ⟨.name n, p⟩ (.name n p)
  | string (s : String) (p : SourcePos) : IsAtom ⟨.string s, p⟩ (.literal (.string s) p)
  | number (n : Number) (p : SourcePos) : IsAtom ⟨.number n, p⟩ (.literal (.number n) p)

/-- The comparison that a token asks for. -/
inductive IsComparison : Lexeme → Ir.BinaryOp → Prop
  | equal {l : Lexeme} (hl : IsSymbol .equal l) : IsComparison l .eq
  | unequal {l : Lexeme} (hl : IsSymbol .unequal l) : IsComparison l .ne

mutual

/-- An expression of a level. -/
inductive IsExpr : Level → List Lexeme → Expr → Prop
  | atom {l : Lexeme} {e : Expr} (ha : IsAtom l e) : IsExpr .primary [l] e
  | parens {o c : Lexeme} {ls : List Lexeme} {e : Expr} (ho : IsSymbol .openParen o) (he : IsExpr .either ls e)
      (hc : IsSymbol .closeParen c) : IsExpr .primary (o :: ls ++ [c]) e
  | ofPrimary {ls : List Lexeme} {e : Expr} (he : IsExpr .primary ls e) : IsExpr .access ls e
  | member {ls : List Lexeme} {d l : Lexeme} {e : Expr} {n : Named} (he : IsExpr .access ls e)
      (hd : IsSymbol .dot d) (hn : IsName n l) : IsExpr .access (ls ++ [d, l]) (.member e n)
  | call {ls as : List Lexeme} {o : Lexeme} {e : Expr} {es : List Expr} (he : IsExpr .access ls e)
      (ho : IsSymbol .openParen o) (ha : IsArgs as es) : IsExpr .access (ls ++ o :: as) (.call e es)
  | ofAccess {ls : List Lexeme} {e : Expr} (he : IsExpr .access ls e) : IsExpr .unary ls e
  | not {ls : List Lexeme} {b : Lexeme} {e : Expr} (hb : IsSymbol .bang b) (he : IsExpr .unary ls e) :
      IsExpr .unary (b :: ls) (.not e b.pos)
  | ofUnary {ls : List Lexeme} {e : Expr} (he : IsExpr .unary ls e) : IsExpr .equality ls e
  | compare {ls rs : List Lexeme} {s : Lexeme} {op : Ir.BinaryOp} {d e : Expr} (hl : IsExpr .unary ls d)
      (hs : IsComparison s op) (hr : IsExpr .unary rs e) : IsExpr .equality (ls ++ s :: rs) (.binary op d e)
  | ofEquality {ls : List Lexeme} {e : Expr} (he : IsExpr .equality ls e) : IsExpr .both ls e
  | both {ls rs : List Lexeme} {s : Lexeme} {d e : Expr} (hl : IsExpr .both ls d) (hs : IsSymbol .both s)
      (hr : IsExpr .equality rs e) : IsExpr .both (ls ++ s :: rs) (.binary .and d e)
  | ofBoth {ls : List Lexeme} {e : Expr} (he : IsExpr .both ls e) : IsExpr .either ls e
  | either {ls rs : List Lexeme} {s : Lexeme} {d e : Expr} (hl : IsExpr .either ls d) (hs : IsSymbol .either s)
      (hr : IsExpr .both rs e) : IsExpr .either (ls ++ s :: rs) (.binary .or d e)

/-- Arguments up to the closing parenthesis. -/
inductive IsArgs : List Lexeme → List Expr → Prop
  | nil {c : Lexeme} (hc : IsSymbol .closeParen c) : IsArgs [c] []
  | last {ls : List Lexeme} {c : Lexeme} {e : Expr} (he : IsExpr .either ls e) (hc : IsSymbol .closeParen c) :
      IsArgs (ls ++ [c]) [e]
  | cons {ls rs : List Lexeme} {c : Lexeme} {e f : Expr} {es : List Expr} (he : IsExpr .either ls e)
      (hc : IsSymbol .comma c) (ha : IsArgs rs (f :: es)) : IsArgs (ls ++ c :: rs) (e :: f :: es)

end

/-! ### Statements -/

mutual

/-- A statement. -/
inductive IsStmt : List Lexeme → Stmt → Prop
  | write {k l s : Lexeme} {text : String} (hk : IsWord "write" k) (hl : IsString text l)
      (hs : IsSymbol .semicolon s) : IsStmt [k, l, s] (.write text)
  | emit {k s : Lexeme} {ls : List Lexeme} {e : Expr} (hk : IsWord "emit" k) (he : IsExpr .either ls e)
      (hs : IsSymbol .semicolon s) : IsStmt (k :: ls ++ [s]) (.emit e none)
  | var {k l a s : Lexeme} {ls : List Lexeme} {n : Named} {e : Expr} (hk : IsWord "var" k) (hn : IsName n l)
      (ha : IsSymbol .assign a) (he : IsExpr .either ls e) (hs : IsSymbol .semicolon s) :
      IsStmt (k :: l :: a :: ls ++ [s]) (.var n e none)
  | ifElse {k : Lexeme} {ls : List Lexeme} {branches : List Branch} {otherwise : Option (List Stmt)}
      (hk : IsWord "if" k) (hb : IsAlternatives ls branches otherwise) :
      IsStmt (k :: ls) (.ifElse branches otherwise none)
  | forEach {k o v l i c : Lexeme} {ls bs : List Lexeme} {n : Named} {e : Expr} {body : List Stmt}
      (hk : IsWord "foreach" k) (ho : IsSymbol .openParen o) (hv : IsWord "var" v) (hn : IsName n l)
      (hi : IsWord "in" i) (he : IsExpr .either ls e) (hc : IsSymbol .closeParen c) (hb : IsBlock bs body) :
      IsStmt (k :: o :: v :: l :: i :: ls ++ c :: bs) (.forEach n e body none)
  | defineSection {k l s : Lexeme} {name : String} (hk : IsWord "define_section" k) (hl : IsString name l)
      (hs : IsSymbol .semicolon s) : IsStmt [k, l, s] (.defineSection ⟨name, k.pos⟩)

/-- The conditions and blocks of an alternative, from its first condition on. -/
inductive IsAlternatives : List Lexeme → List Branch → Option (List Stmt) → Prop
  | last {ls : List Lexeme} {b : Branch} (hb : IsBranch ls b) : IsAlternatives ls [b] none
  | otherwise {ls rs : List Lexeme} {k : Lexeme} {b : Branch} {body : List Stmt} (hb : IsBranch ls b)
      (hk : IsWord "else" k) (ho : IsBlock rs body) : IsAlternatives (ls ++ k :: rs) [b] (some body)
  | cons {ls rs : List Lexeme} {k i : Lexeme} {b : Branch} {bs : List Branch} {otherwise : Option (List Stmt)}
      (hb : IsBranch ls b) (hk : IsWord "else" k) (hi : IsWord "if" i) (ha : IsAlternatives rs bs otherwise) :
      IsAlternatives (ls ++ k :: i :: rs) (b :: bs) otherwise

/-- A condition in parentheses and a block. -/
inductive IsBranch : List Lexeme → Branch → Prop
  | mk {o c : Lexeme} {ls bs : List Lexeme} {e : Expr} {body : List Stmt} (ho : IsSymbol .openParen o)
      (he : IsExpr .either ls e) (hc : IsSymbol .closeParen c) (hb : IsBlock bs body) :
      IsBranch (o :: ls ++ c :: bs) (.mk e body)

/-- Statements in braces. -/
inductive IsBlock : List Lexeme → List Stmt → Prop
  | mk {o c : Lexeme} {ls : List Lexeme} {ss : List Stmt} (ho : IsSymbol .openBrace o) (hs : IsStmts ls ss)
      (hc : IsSymbol .closeBrace c) : IsBlock (o :: ls ++ [c]) ss

/-- Statements, one after another. -/
inductive IsStmts : List Lexeme → List Stmt → Prop
  | nil : IsStmts [] []
  | cons {ls rs : List Lexeme} {s : Stmt} {ss : List Stmt} (hs : IsStmt ls s) (hr : IsStmts rs ss) :
      IsStmts (ls ++ rs) (s :: ss)

end

/-! ### Classes and units -/

/-- A member of a class. -/
inductive IsMember : List Lexeme → Member → Prop
  | layout {k l s : Lexeme} {key : String} (hk : IsWord "layout" k) (hl : IsString key l)
      (hs : IsSymbol .semicolon s) : IsMember [k, l, s] (.layout key false k.pos)
  | defaultLayout {d k l s : Lexeme} {key : String} (hd : IsWord "default" d) (hk : IsWord "layout" k)
      (hl : IsString key l) (hs : IsSymbol .semicolon s) : IsMember [d, k, l, s] (.layout key true d.pos)
  | function {k l o a s : Lexeme} {ps ls : List Lexeme} {n : Named} {params : List Named} {e : Expr}
      (hk : IsWord "function" k) (hn : IsName n l) (ho : IsSymbol .openParen o) (hp : IsParams ps params)
      (ha : IsSymbol .arrow a) (he : IsExpr .either ls e) (hs : IsSymbol .semicolon s) :
      IsMember (k :: l :: o :: ps ++ a :: ls ++ [s]) (.function ⟨n, params, e, none⟩)
  | sectionDecl {k l : Lexeme} {bs : List Lexeme} {name : String} {body : List Stmt} (hk : IsWord "section" k)
      (hl : IsString name l) (hb : IsBlock bs body) : IsMember (k :: l :: bs) (.sectionDecl ⟨⟨name, k.pos⟩, body⟩)
  | execute {k : Lexeme} {bs : List Lexeme} {body : List Stmt} (hk : IsWord "execute" k) (hb : IsBlock bs body) :
      IsMember (k :: bs) (.execute body k.pos)

/-- Members, one after another. -/
inductive IsMembers : List Lexeme → List Member → Prop
  | nil : IsMembers [] []
  | cons {ls rs : List Lexeme} {m : Member} {ms : List Member} (hm : IsMember ls m) (hr : IsMembers rs ms) :
      IsMembers (ls ++ rs) (m :: ms)

/-- The word that may stand before a class. -/
inductive IsVisibility : List Lexeme → Prop
  | none : IsVisibility []
  | hidden {l : Lexeme} (hl : IsWord "internal" l) : IsVisibility [l]
  | visible {l : Lexeme} (hl : IsWord "public" l) : IsVisibility [l]

/-- A class. -/
inductive IsClass : List Lexeme → ClassDecl → Prop
  | mk {vs bs ls ms : List Lexeme} {k l c lt gt o e : Lexeme} {n base model : Named} {members : List Member}
      (hv : IsVisibility vs) (hk : IsWord "class" k) (hn : IsName n l) (hc : IsSymbol .colon c)
      (hb : IsPath bs base) (hl : IsSymbol .less lt) (hm : IsPath ls model) (hg : IsSymbol .greater gt)
      (ho : IsSymbol .openBrace o) (hs : IsMembers ms members) (he : IsSymbol .closeBrace e) :
      IsClass (vs ++ k :: l :: c :: bs ++ lt :: ls ++ gt :: o :: ms ++ [e]) ⟨n, base, model, members⟩

/-- The namespace of a unit, if it is given. -/
inductive IsSpace : List Lexeme → Option String → Prop
  | none : IsSpace [] none
  | some {k s : Lexeme} {ls : List Lexeme} {n : Named} (hk : IsWord "namespace" k) (hp : IsPath ls n)
      (hs : IsSymbol .semicolon s) : IsSpace (k :: ls ++ [s]) (some n.name)

/-- The namespaces that a unit uses. -/
inductive IsUsings : List Lexeme → List Named → Prop
  | nil : IsUsings [] []
  | cons {k s : Lexeme} {ls rs : List Lexeme} {n : Named} {ns : List Named} (hk : IsWord "using" k)
      (hp : IsPath ls n) (hs : IsSymbol .semicolon s) (hr : IsUsings rs ns) :
      IsUsings (k :: ls ++ s :: rs) (n :: ns)

/-- A unit. -/
inductive IsUnit : List Lexeme → Tree → Prop
  | mk {ls us cs : List Lexeme} {space : Option String} {usings : List Named} {decl : ClassDecl}
      (hs : IsSpace ls space) (hu : IsUsings us usings) (hc : IsClass cs decl) :
      IsUnit (ls ++ us ++ cs) ⟨space, usings, decl⟩

/-! ### Every part has a token -/

theorem IsExpr.ne_nil {k : Level} {ls : List Lexeme} {e : Expr} (h : IsExpr k ls e) : ls ≠ [] := by
  induction h using IsExpr.rec (motive_2 := fun _ _ _ => True) <;> simp_all

end Stencil.Unit.Grammar
