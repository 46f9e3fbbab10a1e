import Stencil.Json.Literal
import Stencil.Markup.Document
import Stencil.Markup.Fault
import Stencil.Markup.Region

/-!
Reading template markup. Literal text is copied, an at sign starts code, and two at signs stand for one.
Inside a block the braces of literal text nest, so that the block ends at the first brace that closes
nothing else. A reader of a construct takes the cursor behind what it read; the one recursion is over
blocks, and it is bounded by the number of characters that are left.
-/

namespace Stencil.Markup

/-- A fault and where it is found. -/
abbrev Found := SourcePos × Fault

/-- The block that a run of nodes belongs to. -/
inductive Block
  | topLevel
  /-- A block between braces, where it was opened, and what it is called in messages. -/
  | nested (opened : SourcePos) (label : String) (inSection : Bool)

namespace Block

/-- The block is the template itself. -/
def isTopLevel : Block → Bool
  | topLevel => true
  | nested .. => false

/-- The block stands in a section. -/
def inSection : Block → Bool
  | topLevel => false
  | nested _ _ inSection => inSection

/-- A block that is opened inside this one. -/
def inner (b : Block) (opened : SourcePos) (label : String) : Block :=
  nested opened label b.inSection

end Block

/-- What has been read of a template. -/
structure Progress where
  cursor : Cursor
  directives : Directives := {}
  /-- The sections met so far and where their blocks start. -/
  sections : List (String × SourcePos) := []

/-- The fault of a region that cannot be read, where `opened` is the place to blame if it is not closed. -/
def Unmatched.found (u : Unmatched) (opened : SourcePos) (what : String) : Found :=
  match u with
  | .literal pos => (pos, .literalUnclosed)
  | .unclosed => (opened, .regionUnclosed what)
  | .mismatched c pos => (pos, .strayCloser c what)

/-- Reads a region, blaming `opened` if it is not closed. -/
def region (c : Cursor) (opened : SourcePos) (what : String) : Except Found (Fragment × Cursor) :=
  (balanced c).mapError (·.found opened what)

/-! ### Expressions -/

/-- Reads the member accesses and argument lists that follow a name. The result is their text. -/
def memberChain : Nat → Cursor → Except Found (List Char × Cursor)
  | 0, c => .ok ([], c)
  | fuel + 1, c =>
    if c.peek? = some '.' ∧ c.peekSecond?.any Text.isNameStart then do
      let (name, c) := c.next.takeWhile Text.isNameChar
      let (tail, c) ← memberChain fuel c
      return ('.' :: name ++ tail, c)
    else if c.peek? = some '(' then do
      let (args, c) ← region c c.pos "argument list"
      let (tail, c) ← memberChain fuel c
      return ('(' :: args.text ++ ')' :: tail, c)
    else .ok ([], c)

/-- Reads an expression that starts with a name: a name, member accesses and argument lists. -/
def implicitExpression (c : Cursor) : Except Found (Node × Cursor) := do
  let (name, d) := c.takeWhile Text.isNameChar
  let (tail, d) ← memberChain d.rest.length d
  return (.expr (String.ofList (name ++ tail)) c.pos, d)

/-- Reads an expression between parentheses, where `pos` is the place of its at sign. -/
def explicitExpression (pos : SourcePos) (c : Cursor) : Except Found (Node × Cursor) := do
  let (inner, c) ← region c pos "explicit expression"
  let code := inner.trim
  if code.isBlank then throw (pos, .emptyExpression)
  return (.expr (String.ofList code.text) code.start, c)

/-- Reads the condition of a control block. -/
def parenthesized (keyword : String) (c : Cursor) : Except Found (Fragment × Cursor) := do
  let c := c.skipBlanks
  if c.peek? ≠ some '(' then throw (c.pos, .missingParenthesis keyword)
  let (inner, d) ← region c c.pos s!"'{keyword}' condition"
  let cond := inner.trim
  if cond.isBlank then throw (c.pos, .emptyCondition keyword)
  return (cond, d)

/-- Reads the brace that opens a block. The result is its place. -/
def openBrace (what : String) (c : Cursor) : Except Found (SourcePos × Cursor) :=
  let c := c.skipBlanks
  match c.eat? '{' with
  | some d => .ok (c.pos, d)
  | none => .error (c.pos, .missingBrace what)

/-! ### Control blocks

Each of them is given the reader of the blocks inside it. -/

/-- A reader of the nodes of a block up to the brace that closes it. -/
abbrev BodyReader := Block → Progress → Except Found (List Node × Progress)

/-- The cursor after an `else`, if one comes next. -/
def elseKeyword? (c : Cursor) : Option Cursor :=
  (c.skipBlanks.keyword? "else".toList).map (·.skipBlanks)

/-- Reads the conditions and bodies of an alternative, from its first condition on. -/
def alternatives (body : BodyReader) (block : Block) :
    Nat → Progress → Except Found (List Branch × Option (List Node) × Progress)
  | 0, p => .error (p.cursor.pos, .unfinished)
  | fuel + 1, p => do
    let (cond, c) ← parenthesized "if" p.cursor
    let (opened, c) ← openBrace "'if'" c
    let (nodes, p) ← body (block.inner opened "'if'") { p with cursor := c }
    let branch := Branch.mk (String.ofList cond.text) cond.start nodes
    match elseKeyword? p.cursor with
    | none => return ([branch], none, p)
    | some c =>
      match c.keyword? "if".toList with
      | some c =>
        let (branches, otherwise, p) ← alternatives body block fuel { p with cursor := c }
        return (branch :: branches, otherwise, p)
      | none =>
        let (opened, c) ← openBrace "'else'" c
        let (nodes, p) ← body (block.inner opened "'else'") { p with cursor := c }
        return ([branch], some nodes, p)

/-- Reads an alternative whose keyword has been read. -/
def ifBlock (body : BodyReader) (block : Block) (p : Progress) : Except Found (Node × Progress) := do
  let (branches, otherwise, p) ← alternatives body block (p.cursor.rest.length + 1) p
  return (.ifElse branches otherwise, p)

/-- The text after a leading `var`, if there is one. -/
def afterVar? (cs : List Char) : Option (List Char) :=
  if "var ".toList.isPrefixOf cs then some (Text.trim (cs.drop 4)) else none

/-- The variable and the source of a loop header. -/
def loopHeader? (header : Fragment) : Option (List Char × Fragment) := do
  let split ← findTopLevel header.text " in ".toList
  let binding := Text.trim (header.text.take split)
  let var := (afterVar? binding).getD binding
  let source := (header.drop (split + 4)).trim
  if Text.isName var ∧ ¬source.isBlank then some (var, source) else none

/-- Reads a loop whose keyword has been read. -/
def forEachBlock (body : BodyReader) (block : Block) (p : Progress) : Except Found (Node × Progress) := do
  let (header, c) ← parenthesized "foreach" p.cursor
  match loopHeader? header with
  | none => throw (header.start, .malformedForeach)
  | some (var, source) =>
    let (opened, c) ← openBrace "'foreach'" c
    let (nodes, p) ← body (block.inner opened "'foreach'") { p with cursor := c }
    return (.forEach (String.ofList var) (String.ofList source.text) source.start nodes, p)

/-- Reads a section whose keyword has been read, where `pos` is the place of its at sign. -/
def sectionBlock (body : BodyReader) (pos : SourcePos) (block : Block) (p : Progress) :
    Except Found (Node × Progress) := do
  if block.inSection then throw (pos, .nestedSection)
  if !block.isTopLevel then throw (pos, .sectionNotTopLevel)
  let c := p.cursor.skipInlineBlanks
  match c.name? with
  | none => throw (c.pos, .missingSectionName)
  | some (name, c) =>
    let name := String.ofList name
    match p.sections.find? (·.1 == name) with
    | some (_, first) => throw (pos, .duplicateSection name first.line)
    | none =>
      let label := s!"section '{name}'"
      let (_, c) ← openBrace label c
      let (nodes, p) ← body (.nested pos label true)
        { p with cursor := c, sections := p.sections ++ [(name, pos)] }
      return (.sectionDef name pos nodes, { p with cursor := p.cursor.dropBlankLineEnd })

/-! ### Directives -/

/-- The text between two quotes that enclose it. -/
def stripQuotes? (cs : List Char) : Option (List Char) :=
  match cs with
  | '"' :: rest => if rest.getLast? = some '"' then some rest.dropLast else none
  | _ => none

/-- A text without the semicolons at its end. -/
def trimSemicolons (cs : List Char) : List Char :=
  (cs.reverse.dropWhile (· == ';')).reverse

/-- The value of a directive: for a layout the text, unquoted if it is quoted; for any other a dotted name,
which semicolons may follow. -/
def directiveValue (keyword : String) (raw : List Char) : Except Fault (List Char) :=
  if keyword = "layout" then
    let value := (stripQuotes? raw).getD raw
    if value.isEmpty then .error .emptyLayout else .ok value
  else
    let value := Text.trim (trimSemicolons raw)
    if Text.isDottedName value then .ok value else .error (.badDirectiveName (String.ofList raw) keyword)

/-- Records a directive; all but the namespaces may be given once. -/
def Directives.add? (ds : Directives) (keyword : String) (d : Directive) : Option Directives :=
  match keyword with
  | "model" => if ds.model.isSome then none else some { ds with model := some d }
  | "inherits" => if ds.inherits.isSome then none else some { ds with inherits := some d }
  | "layout" => if ds.layout.isSome then none else some { ds with layout := some d }
  | _ => some { ds with usings := ds.usings ++ [d] }

/-- Reads the rest of a directive's line, where `pos` is the place of its at sign. -/
def lineDirective (keyword : String) (pos : SourcePos) (block : Block) (p : Progress) :
    Except Found Progress := do
  if !block.isTopLevel then throw (pos, .directiveNotTopLevel keyword)
  let c := p.cursor.skipInlineBlanks
  let (line, d) := c.line
  let raw := Text.trim line
  if raw.isEmpty then throw (pos, .missingDirectiveValue keyword)
  let value ← (directiveValue keyword raw).mapError fun f => (c.pos, f)
  match p.directives.add? keyword ⟨String.ofList value, c.pos⟩ with
  | some directives => return { p with directives, cursor := d.next }
  | none => throw (pos, .duplicateDirective keyword)

/-! ### Functions -/

/-- The parameter names of a parameter list: names, all different. -/
def paramNames? (cs : List Char) : Option (List (List Char)) :=
  if Text.allBlank cs then some []
  else
    let params := (Text.fields ',' cs).map Text.trim
    if params.all Text.isName ∧ params.Nodup then some params else none

/-- The name and the parameters of a function head. -/
def functionHead? (head : List Char) : Option (List Char × List (List Char)) := do
  let name := Text.trim (head.takeWhile (· != '('))
  let after := head.dropWhile (· != '(')
  let inner := after.drop 1
  if after.isEmpty ∨ inner.getLast? ≠ some ')' ∨ ¬Text.isName name then none
  else some (name, ← paramNames? inner.dropLast)

/-- The function that a declaration `Name(a, b) => code` declares. -/
def functionDecl? (piece : Fragment) : Option FunctionDecl := do
  let arrow ← findTopLevel piece.text "=>".toList
  let (name, params) ← functionHead? (Text.trim (piece.text.take arrow))
  let body := (piece.drop (arrow + 2)).trim
  if body.isBlank then none
  else some ⟨String.ofList name, params.map String.ofList, String.ofList body.text, body.start⟩

/-- Records the function of a declaration. -/
def addFunction (ds : Directives) (piece : Fragment) : Except Found Directives :=
  match functionDecl? piece with
  | none => .error (piece.start, .malformedFunction)
  | some decl =>
    if ds.functions.any (·.name == decl.name) then .error (piece.start, .duplicateFunction decl.name)
    else .ok { ds with functions := ds.functions ++ [decl] }

/-- The statements of a region: what stands before each of its semicolons, blank ones left out. What
follows the last semicolon has to be blank. -/
def statements (inner : Fragment) (unterminated : Fault) : Except Found (List Fragment) :=
  let pieces := splitStatements inner
  match pieces.getLast? with
  | none => .ok []
  | some last =>
    if last.isBlank then .ok ((pieces.dropLast.map Fragment.trim).filter (!·.isBlank))
    else .error (last.trim.start, unterminated)

/-- Reads a block of functions whose keyword has been read, where `pos` is the place of its at sign. -/
def functionsBlock (pos : SourcePos) (block : Block) (p : Progress) : Except Found Progress := do
  if !block.isTopLevel then throw (pos, .functionsNotTopLevel)
  let c := p.cursor.skipBlanks
  if c.peek? ≠ some '{' then throw (c.pos, .missingFunctionsBrace)
  let (inner, c) ← region c pos "functions block"
  let pieces ← statements inner .functionUnterminated
  let directives ← pieces.foldlM addFunction p.directives
  return { p with directives, cursor := c.dropBlankLineEnd }

/-! ### Code blocks -/

/-- The target and the value of an assignment: the first top-level equals sign parts them, unless another
one follows it. -/
def assignment? (statement : Fragment) : Option (List Char × Fragment) := do
  let split ← findTopLevel statement.text ['=']
  if statement.text[split + 1]? = some '=' then none
  else some (Text.trim (statement.text.take split), (statement.drop (split + 1)).trim)

/-- Records the layout that a statement at `pos` assigns. -/
def assignLayout (pos : SourcePos) (value : Fragment) (block : Block) (ds : Directives) :
    Except Found Directives := do
  if !block.isTopLevel then throw (pos, .layoutNotTopLevel)
  match Json.unquoteChars? value.text with
  | none => throw (value.start, .layoutNotLiteral)
  | some key =>
    if key.isEmpty then throw (value.start, .emptyLayout)
    if ds.layout.isSome then throw (pos, .layoutSetTwice)
    return { ds with layout := some ⟨String.ofList key, value.start⟩ }

/-- Reads one statement of a code block: it sets the layout or declares a variable. -/
def codeStatement (block : Block) (acc : Directives × List Node) (statement : Fragment) :
    Except Found (Directives × List Node) := do
  let unsupported := (statement.start, Fault.unsupportedStatement (String.ofList statement.text))
  match assignment? statement with
  | none => throw unsupported
  | some (target, value) =>
    if value.isBlank then throw (statement.start, .missingAssignedValue)
    if target = "Layout".toList then
      return (← assignLayout statement.start value block acc.1, acc.2)
    match afterVar? target with
    | none => throw unsupported
    | some name =>
      if !Text.isName name then throw (statement.start, .badVariableName (String.ofList name))
      return (acc.1, acc.2 ++ [.var (String.ofList name) (String.ofList value.text) value.start])

/-- Reads a code block, where `pos` is the place of its at sign. -/
def codeBlock (pos : SourcePos) (block : Block) (p : Progress) :
    Except Found (List Node × Progress) := do
  let (inner, c) ← region p.cursor pos "code block"
  let pieces ← statements inner .statementUnterminated
  let (directives, nodes) ← pieces.foldlM (codeStatement block) (p.directives, [])
  return (nodes, { p with directives, cursor := if block.isTopLevel then c.dropBlankLineEnd else c })

/-! ### Code after an at sign -/

/-- Words that look like control blocks and are none. -/
def unsupportedKeywords : List String :=
  ["for", "while", "do", "switch", "try", "lock", "helper", "page", "inject"]

/-- Reads the construct or expression that starts with a name, where `pos` is the place of its at sign. -/
def named (body : BodyReader) (pos : SourcePos) (block : Block) (p : Progress) :
    Except Found (List Node × Progress) := do
  let (word, c) := p.cursor.takeWhile Text.isNameChar
  let word := String.ofList word
  let after := { p with cursor := c }
  let one (r : Except Found (Node × Progress)) : Except Found (List Node × Progress) :=
    r.map fun r => ([r.1], r.2)
  match word with
  | "if" => one (ifBlock body block after)
  | "foreach" => one (forEachBlock body block after)
  | "section" => one (sectionBlock body pos block after)
  | "functions" => return ([], ← functionsBlock pos block after)
  | "model" | "inherits" | "using" | "layout" => return ([], ← lineDirective word pos block after)
  | "else" => throw (pos, .strayElse)
  | _ =>
    if unsupportedKeywords.contains word then throw (pos, .unsupportedKeyword word)
    let (node, c) ← implicitExpression p.cursor
    return ([node], { p with cursor := c })

/-- The cursor after the end of a comment. -/
def commentEnd? (pos : SourcePos) : List Char → Option Cursor
  | [] => none
  | c :: cs =>
    if c = '*' ∧ cs.head? = some '@' then some ⟨cs.drop 1, (pos.next c).after (cs.take 1)⟩
    else commentEnd? (pos.next c) cs

/-! ### Blocks -/

/-- Literal text read since the last construct, last character first, and the place of its first
character. -/
structure TextRun where
  chars : List Char := []
  pos : SourcePos := .start

namespace TextRun

/-- The run with one more character. -/
def push (t : TextRun) (c : Char) (pos : SourcePos) : TextRun :=
  ⟨c :: t.chars, if t.chars.isEmpty then pos else t.pos⟩

/-- The node of the run; an empty run has none. -/
def nodes (t : TextRun) : List Node :=
  if t.chars.isEmpty then [] else [.text (String.ofList t.chars.reverse) t.pos]

/-- The nodes of a block that ends with the run, where the nodes before it are given last one first. -/
def closing (t : TextRun) (done : List Node) : List Node := done.reverse ++ t.nodes

/-- The run ends with a letter or digit of the basic Latin alphabet. -/
def endsInWord (t : TextRun) : Bool := t.chars.head?.any Char.isAlphanum

end TextRun

/-- What an at sign turned out to be. -/
inductive AtSign
  /-- An at sign of the text itself, and the cursor after it. -/
  | literal (cursor : Cursor)
  /-- A comment, and the cursor after it. -/
  | comment (cursor : Cursor)
  /-- Code, and the nodes it gives. -/
  | code (nodes : List Node) (progress : Progress)

/-- Reads from an at sign on. One in the middle of a word, as in an address, is text. -/
def atSign (body : BodyReader) (block : Block) (text : TextRun) (p : Progress) : Except Found AtSign := do
  let pos := p.cursor.pos
  let c := p.cursor.next
  if text.endsInWord && c.nextIs Text.isNameChar then return .literal c
  match c.peek? with
  | none => throw (pos, .endAfterAt)
  | some '@' => return .literal c.next
  | some '*' =>
    match commentEnd? c.next.pos c.next.rest with
    | some c => return .comment c
    | none => throw (pos, .commentUnclosed)
  | some '(' =>
    let (node, c) ← explicitExpression pos c
    return .code [node] { p with cursor := c }
  | some '{' =>
    let (nodes, p) ← codeBlock pos block { p with cursor := c }
    return .code nodes p
  | some x =>
    if !Text.isNameStart x then throw (pos, .badStart x)
    let (nodes, p) ← named body pos block { p with cursor := c }
    return .code nodes p

/-- Reads the nodes of a block up to the brace that closes it, or of the template up to its end. `depth` is
the number of open braces in the literal text of the block, and `done` holds the nodes read so far, last
one first. -/
def blockNodes : Nat → Block → Nat → TextRun → List Node → Progress →
    Except Found (List Node × Progress)
  | 0, _, _, _, _, p => .error (p.cursor.pos, .unfinished)
  | fuel + 1, block, depth, text, done, p =>
    let c := p.cursor
    let literal (depth : Nat) (x : Char) (c' : Cursor) : Except Found (List Node × Progress) :=
      blockNodes fuel block depth (text.push x c.pos) done { p with cursor := c' }
    match c.peek? with
    | none => match block with
      | .topLevel => .ok (text.closing done, p)
      | .nested opened label _ => .error (opened, .blockUnclosed label)
    | some '@' => do
      match ← atSign (fun b p => blockNodes fuel b 0 {} [] p) block text p with
      | .literal c' => literal depth '@' c'
      | .comment c' => blockNodes fuel block depth text done { p with cursor := c' }
      | .code nodes p => blockNodes fuel block depth {} (nodes.reverse ++ text.nodes.reverse ++ done) p
    | some x =>
      if block.isTopLevel then literal 0 x c.next
      else if x = '{' then literal (depth + 1) x c.next
      else if x = '}' then
        if depth = 0 then .ok (text.closing done, { p with cursor := c.next }) else literal (depth - 1) x c.next
      else literal depth x c.next

/-! ### Templates -/

/-- The document of a template text. -/
def Document.ofChars (text : List Char) : Except Found Document := do
  let (nodes, p) ← blockNodes (text.length + 1) .topLevel 0 {} [] { cursor := .ofText text }
  return ⟨nodes, p.directives⟩

/-- Reads the document of a template. -/
def parse (template text : String) : Except ParseError Document :=
  (Document.ofChars text.toList).mapError fun (pos, fault) => ⟨template, pos, fault⟩

end Stencil.Markup
