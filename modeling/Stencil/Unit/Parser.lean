import Stencil.Unit.Lexer
import Stencil.Unit.Tree

/-!
Reading units.

    unit      = [ "namespace" path ";" ] ( "using" path ";" )* class
    class     = [ "internal" | "public" ] "class" name ":" path "<" path ">" "{" member* "}"
    member    = [ "default" ] "layout" string ";" | "function" name "(" names ")" "=>" expr ";"
              | "section" string block | "execute" block
    block     = "{" statement* "}"
    statement = "write" string ";" | "emit" expr ";" | "var" name "=" expr ";"
              | "if" "(" expr ")" block ( "else" "if" "(" expr ")" block )* [ "else" block ]
              | "foreach" "(" "var" name "in" expr ")" block | "define_section" string ";"
    expr      = both ( "||" both )*
    both      = equality ( "&&" equality )*
    equality  = unary [ ( "==" | "!=" ) unary ]
    unary     = "!" unary | primary ( "." name | "(" exprs ")" )*
    primary   = name | string | number | "(" expr ")"

Pragmas may stand before the parts of a class and of a block; the last one before a statement or a function
gives its place in the template. Every recursion is bounded by a number above the number of tokens that are
left.
-/

namespace Stencil.Unit

/-- The tokens that are left, the place behind the last one, and the place in the template that the next
statement has. -/
structure Input where
  lexemes : List Lexeme
  finish : SourcePos
  pending : Option SourcePos := none

/-- A reader of part of a unit. -/
abbrev Reader (α : Type) := Input → Except Found (α × Input)

namespace Input

/-- The next token. -/
def peek? (i : Input) : Option Token := i.lexemes.head?.map (·.token)

/-- The place of the next token, or the place behind the last one. -/
def pos (i : Input) : SourcePos := (i.lexemes.head?.map (·.pos)).getD i.finish

/-- The input after the next token. -/
def next (i : Input) : Input := { i with lexemes := i.lexemes.drop 1 }

/-- The fault of an input that does not go on as expected. -/
def unexpected (i : Input) (what : String) : Found := (i.pos, .expected what i.peek?)

/-- The symbol comes next. -/
def atSymbol (i : Input) (s : Symbol) : Bool :=
  match i.peek? with
  | some (.symbol t) => t == s
  | _ => false

/-- The word comes next. -/
def atWord (i : Input) (word : String) : Bool :=
  match i.peek? with
  | some (.name n) => n == word
  | _ => false

/-- The input after a symbol, which has to come next. -/
def expect (s : Symbol) (i : Input) : Except Found Input :=
  if i.atSymbol s then .ok i.next else .error (i.unexpected (Token.symbol s).describe)

/-- The input after a word, which has to come next. -/
def expectWord (word : String) (i : Input) : Except Found Input :=
  if i.atWord word then .ok i.next else .error (i.unexpected s!"'{word}'")

/-- The places of the pragmas at the front of some tokens, and the tokens after them. -/
def splitPragmas : List Lexeme → List SourcePos × List Lexeme
  | ⟨.pragma p, _⟩ :: rest => let (ps, rest) := splitPragmas rest; (p :: ps, rest)
  | rest => ([], rest)

/-- The input after the pragmas that come next; the last one counts for the next statement. -/
def takePragmas (i : Input) : Input :=
  let (ps, rest) := splitPragmas i.lexemes
  { i with lexemes := rest, pending := ps.getLast?.or i.pending }

/-- The place that a statement has, and the input without it. -/
def takePending (i : Input) : Option SourcePos × Input := (i.pending, { i with pending := none })

end Input

/-- Reads a name. -/
def name : Reader Named := fun i =>
  match i.peek? with
  | some (.name n) => .ok (⟨n, i.pos⟩, i.next)
  | _ => .error (i.unexpected "an identifier")

/-- Reads a string literal. -/
def string : Reader String := fun i =>
  match i.peek? with
  | some (.string s) => .ok (s, i.next)
  | _ => .error (i.unexpected "a string literal")

/-- Reads the names after a first one, each after a dot. -/
def pathRest : Nat → Named → Reader Named
  | 0, _, i => .error (i.pos, .unfinished)
  | fuel + 1, n, i =>
    if i.atSymbol .dot then do
      let (m, i) ← name i.next
      pathRest fuel ⟨n.name ++ "." ++ m.name, n.pos⟩ i
    else .ok (n, i)

/-- Reads names joined by dots. -/
def path (fuel : Nat) : Reader Named := fun i => do
  let (n, i) ← name i
  pathRest fuel n i

/-- Reads what stands between commas up to a closing parenthesis. -/
def commaList (item : Reader α) : Nat → Reader (List α)
  | 0, i => .error (i.pos, .unfinished)
  | fuel + 1, i => do
    let (a, i) ← item i
    if i.atSymbol .closeParen then return ([a], i.next)
    let i ← i.expect .comma
    let (as, i) ← commaList item fuel i
    return (a :: as, i)

/-- Reads a list whose opening parenthesis has been read; it may be empty. -/
def parenthesizedList (item : Reader α) (fuel : Nat) : Reader (List α) := fun i =>
  if i.atSymbol .closeParen then .ok ([], i.next) else commaList item fuel i

/-! ### Expressions

Each level is given the reader of whole expressions, which stand in parentheses. -/

/-- The value of a word that is a literal. -/
def wordLiteral? : String → Option Json
  | "true" => some (.bool true)
  | "false" => some (.bool false)
  | "null" => some .null
  | _ => none

/-- Reads a name, a literal, or an expression in parentheses. -/
def primary (expr : Reader Expr) : Reader Expr := fun i =>
  match i.peek? with
  | some (.name n) => match wordLiteral? n with
    | some v => .ok (.literal v i.pos, i.next)
    | none => .ok (.name n i.pos, i.next)
  | some (.string s) => .ok (.literal (.string s) i.pos, i.next)
  | some (.number n) => .ok (.literal (.number n) i.pos, i.next)
  | some (.symbol .openParen) => do
    let (e, i) ← expr i.next
    let i ← i.expect .closeParen
    return (e, i)
  | _ => .error (i.unexpected "an expression")

/-- Reads the member accesses and calls that follow an expression. -/
def accesses (expr : Reader Expr) : Nat → Expr → Reader Expr
  | 0, _, i => .error (i.pos, .unfinished)
  | fuel + 1, e, i =>
    if i.atSymbol .dot then do
      let (n, i) ← name i.next
      accesses expr fuel (.member e n) i
    else if i.atSymbol .openParen then do
      let (args, i) ← parenthesizedList expr fuel i.next
      accesses expr fuel (.call e args) i
    else .ok (e, i)

/-- Reads negations and what they negate. -/
def unary (expr : Reader Expr) : Nat → Reader Expr
  | 0, i => .error (i.pos, .unfinished)
  | fuel + 1, i =>
    if i.atSymbol .bang then do
      let (e, j) ← unary expr fuel i.next
      return (.not e i.pos, j)
    else do
      let (e, i) ← primary expr i
      accesses expr (fuel + 1) e i

/-- Reads one operand, or two that are compared. -/
def equality (operand : Reader Expr) : Reader Expr := fun i => do
  let (lhs, i) ← operand i
  if i.atSymbol .equal then
    let (rhs, i) ← operand i.next
    return (.binary .eq lhs rhs, i)
  else if i.atSymbol .unequal then
    let (rhs, i) ← operand i.next
    return (.binary .ne lhs rhs, i)
  else return (lhs, i)

/-- Reads the operands after a first one, each after the symbol; they group to the left. -/
def chainRest (operand : Reader Expr) (s : Symbol) (op : Ir.BinaryOp) : Nat → Expr → Reader Expr
  | 0, _, i => .error (i.pos, .unfinished)
  | fuel + 1, lhs, i =>
    if i.atSymbol s then do
      let (rhs, i) ← operand i.next
      chainRest operand s op fuel (.binary op lhs rhs) i
    else .ok (lhs, i)

/-- Reads operands with a symbol between them. -/
def chain (operand : Reader Expr) (s : Symbol) (op : Ir.BinaryOp) (fuel : Nat) : Reader Expr := fun i => do
  let (lhs, i) ← operand i
  chainRest operand s op fuel lhs i

/-- Reads an expression. -/
def expr : Nat → Reader Expr
  | 0, i => .error (i.pos, .unfinished)
  | fuel + 1, i =>
    let operand := equality (unary (expr fuel) (fuel + 1))
    chain (chain operand .both .and (fuel + 1)) .either .or (fuel + 1) i

/-! ### Statements

Each form is given the reader of blocks. -/

/-- Reads a condition between parentheses. -/
def condition (fuel : Nat) : Reader Expr := fun i => do
  let i ← i.expect .openParen
  let (cond, i) ← expr fuel i
  let i ← i.expect .closeParen
  return (cond, i)

/-- The input after an `else`, which pragmas may precede. -/
def elseWord? (i : Input) : Option Input :=
  let j := i.takePragmas
  if j.atWord "else" then some { j.next with pending := none } else none

/-- Reads the conditions and blocks of an alternative, from its first condition on. -/
def alternatives (block : Reader (List Stmt)) : Nat → Reader (List Branch × Option (List Stmt))
  | 0, i => .error (i.pos, .unfinished)
  | fuel + 1, i => do
    let (cond, i) ← condition fuel i
    let (body, i) ← block i
    match elseWord? i with
    | none => return (([.mk cond body], none), i)
    | some j =>
      if j.atWord "if" then
        let ((branches, otherwise), i) ← alternatives block fuel j.next
        return ((.mk cond body :: branches, otherwise), i)
      else
        let (otherwise, i) ← block j
        return (([.mk cond body], some otherwise), i)

/-- Reads a loop whose keyword has been read. -/
def forEach (block : Reader (List Stmt)) (fuel : Nat) (pos : Option SourcePos) : Reader Stmt := fun i => do
  let i ← i.expect .openParen
  let i ← i.expectWord "var"
  let (var, i) ← name i
  let i ← i.expectWord "in"
  let (source, i) ← expr fuel i
  let i ← i.expect .closeParen
  let (body, i) ← block i
  return (.forEach var source body pos, i)

/-- Reads what a semicolon has to follow. -/
def terminated (read : Reader α) : Reader α := fun i => do
  let (a, i) ← read i
  return (a, ← i.expect .semicolon)

/-- Reads a variable whose keyword has been read. -/
def variableDecl (fuel : Nat) (pos : Option SourcePos) : Reader Stmt := fun i => do
  let (n, i) ← name i
  let i ← i.expect .assign
  let (e, i) ← expr fuel i
  return (.var n e pos, i)

/-- Reads a statement. -/
def statement (block : Reader (List Stmt)) (fuel : Nat) : Reader Stmt := fun i => do
  let (pos, i) := i.takePragmas.takePending
  match i.peek? with
  | some (.name keyword) =>
    let j := i.next
    match keyword with
    | "write" => terminated (fun i => do let (s, i) ← string i; return (.write s, i)) j
    | "emit" => terminated (fun i => do let (e, i) ← expr fuel i; return (.emit e pos, i)) j
    | "var" => terminated (variableDecl fuel pos) j
    | "define_section" =>
      terminated (fun k => do let (s, k) ← string k; return (.defineSection ⟨s, i.pos⟩, k)) j
    | "if" =>
      let ((branches, otherwise), j) ← alternatives block fuel j
      return (.ifElse branches otherwise pos, j)
    | "foreach" => forEach block fuel pos j
    | _ => throw (i.pos, .unknownStatement keyword)
  | _ => throw (i.unexpected "a statement")

/-- Reads the statements of a block up to its closing brace. -/
def statements : Nat → Reader (List Stmt)
  | 0, i => .error (i.pos, .unfinished)
  | fuel + 1, i => do
    let i := i.takePragmas
    if i.atSymbol .closeBrace then return ([], i.next)
    if i.lexemes.isEmpty then throw (i.unexpected (Token.symbol .closeBrace).describe)
    let block : Reader (List Stmt) := fun i => do
      let i ← i.takePragmas.expect .openBrace
      statements fuel i
    let (s, i) ← statement block (fuel + 1) i
    let (ss, i) ← statements fuel i
    return (s :: ss, i)

/-- Reads a block. -/
def block (fuel : Nat) : Reader (List Stmt) := fun i => do
  let i ← i.takePragmas.expect .openBrace
  statements fuel i

/-! ### Classes and units -/

/-- Reads a layout whose keyword has been read, where `pos` is the place of its first keyword. -/
def layout (inherited : Bool) (pos : SourcePos) : Reader Member := fun i => do
  let (key, i) ← string i
  let i ← i.expect .semicolon
  return (.layout key inherited pos, i)

/-- Reads a function whose keyword has been read. -/
def function (fuel : Nat) (template : Option SourcePos) : Reader Member := fun i => do
  let (n, i) ← name i
  let i ← i.expect .openParen
  let (params, i) ← parenthesizedList name fuel i
  let i ← i.expect .arrow
  let (body, i) ← expr fuel i
  let i ← i.expect .semicolon
  return (.function ⟨n, params, body, template⟩, i)

/-- Reads a member of a class. -/
def member (fuel : Nat) : Reader Member := fun i => do
  let (template, i) := i.takePending
  match i.peek? with
  | some (.name keyword) =>
    match keyword with
    | "layout" => layout false i.pos i.next
    | "default" => layout true i.pos (← i.next.expectWord "layout")
    | "function" => function fuel template i.next
    | "section" =>
      let (s, j) ← string i.next
      let (body, j) ← block fuel j
      return (.sectionDecl ⟨⟨s, i.pos⟩, body⟩, j)
    | "execute" =>
      let (body, j) ← block fuel i.next
      return (.execute body i.pos, j)
    | _ => throw (i.pos, .unknownMember keyword)
  | _ => throw (i.unexpected "a class member")

/-- Reads the members of a class up to its closing brace. -/
def members : Nat → Reader (List Member)
  | 0, i => .error (i.pos, .unfinished)
  | fuel + 1, i => do
    let i := i.takePragmas
    if i.atSymbol .closeBrace then return ([], i.next)
    let (m, i) ← member (fuel + 1) i
    let (ms, i) ← members fuel i
    return (m :: ms, i)

/-- Reads a class. -/
def classDecl (fuel : Nat) : Reader ClassDecl := fun i => do
  let i := { i.takePragmas with pending := none }
  let i := if i.atWord "internal" || i.atWord "public" then i.next else i
  let i ← i.expectWord "class"
  let (n, i) ← name i
  let i ← i.expect .colon
  let (base, i) ← path fuel i
  let i ← i.expect .less
  let (model, i) ← path fuel i
  let i ← i.expect .greater
  let i ← i.expect .openBrace
  let (ms, i) ← members fuel i
  return (⟨n, base, model, ms⟩, i)

/-- Reads the namespaces that a unit uses. -/
def usings : Nat → Reader (List Named)
  | 0, i => .error (i.pos, .unfinished)
  | fuel + 1, i =>
    let i := i.takePragmas
    if i.atWord "using" then do
      let (n, i) ← path fuel i.next
      let i ← i.expect .semicolon
      let (ns, i) ← usings fuel i
      return (n :: ns, i)
    else .ok ([], i)

/-- Reads the namespace of a unit, if it is given. -/
def space (fuel : Nat) : Reader (Option String) := fun i =>
  if i.atWord "namespace" then do
    let (n, i) ← path fuel i.next
    return (some n.name, ← i.expect .semicolon)
  else .ok (none, i)

/-- Reads a whole unit. -/
def unit : Reader Tree := fun i => do
  let fuel := i.lexemes.length + 1
  let (s, i) ← space fuel i.takePragmas
  let (us, i) ← usings fuel i
  let (c, i) ← classDecl fuel i
  let i := i.takePragmas
  if !i.lexemes.isEmpty then throw (i.unexpected "end of unit")
  return (⟨s, us, c⟩, i)

/-- The place behind the last token. -/
def finishOf (ls : List Lexeme) : SourcePos :=
  match ls.getLast? with
  | some l => ⟨l.pos.line, l.pos.column + 1⟩
  | none => .start

/-- The unit that tokens spell. -/
def Tree.ofLexemes (ls : List Lexeme) : Except Found Tree :=
  (unit { lexemes := ls, finish := finishOf ls }).map (·.1)

/-- The unit that a text spells. -/
def Tree.ofSource (source : String) : Except Found Tree := do
  Tree.ofLexemes (← lexemes source.toList)

end Stencil.Unit
