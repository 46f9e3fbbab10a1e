import Stencil.Json.Value
import Stencil.Text.Position

/-!
The tokens of a unit: names, literals, symbols, and the pragmas that give places in the template.
-/

namespace Stencil.Unit

/-- A symbol of a unit. -/
inductive Symbol
  | openParen
  | closeParen
  | openBrace
  | closeBrace
  | less
  | greater
  | comma
  | dot
  | semicolon
  | colon
  | bang
  | equal
  | unequal
  | both
  | either
  | assign
  | arrow
deriving DecidableEq

namespace Symbol

/-- The text of a symbol. -/
def text : Symbol → String
  | openParen => "("
  | closeParen => ")"
  | openBrace => "\x7b"
  | closeBrace => "\x7d"
  | less => "<"
  | greater => ">"
  | comma => ","
  | dot => "."
  | semicolon => ";"
  | colon => ":"
  | bang => "!"
  | equal => "=="
  | unequal => "!="
  | both => "&&"
  | either => "||"
  | assign => "="
  | arrow => "=>"

/-- The symbols, longer ones before those they start with. -/
def all : List Symbol :=
  [equal, arrow, assign, unequal, bang, both, either, openParen, closeParen, openBrace, closeBrace, less,
    greater, comma, dot, semicolon, colon]

end Symbol

/-- A token of a unit. -/
inductive Token
  | name (s : String)
  | string (s : String)
  | number (n : Number)
  /-- The place in the template of what comes next. -/
  | pragma (template : SourcePos)
  | symbol (s : Symbol)

/-- How a token is named in messages. -/
def Token.describe : Token → String
  | name s => s!"'{s}'"
  | string _ => "string literal"
  | number n => s!"'{String.ofList n.text}'"
  | pragma _ => "#line"
  | symbol s => s!"'{s.text}'"

/-- A token and its place in the unit. -/
structure Lexeme where
  token : Token
  pos : SourcePos

end Stencil.Unit
