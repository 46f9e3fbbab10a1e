import Stencil.Text.Position

/-!
Malformed markup. A fault is the reason why a template cannot be read; a parse error is a fault together
with the template and the place it is found at.
-/

namespace Stencil.Markup

/-- Why a template cannot be read. -/
inductive Fault
  /-- The text ends inside the named block. -/
  | blockUnclosed (label : String)
  | commentUnclosed
  | emptyExpression
  /-- No code can start with this character. -/
  | badStart (c : Char)
  | endAfterAt
  | strayElse
  | unsupportedKeyword (word : String)
  | literalUnclosed
  | regionUnclosed (what : String)
  | strayCloser (found : Char) (what : String)
  | missingBrace (what : String)
  | missingParenthesis (keyword : String)
  | emptyCondition (keyword : String)
  | malformedForeach
  | nestedSection
  | sectionNotTopLevel
  | missingSectionName
  | duplicateSection (name : String) (line : Nat)
  | directiveNotTopLevel (keyword : String)
  | missingDirectiveValue (keyword : String)
  | badDirectiveName (value keyword : String)
  | duplicateDirective (keyword : String)
  | emptyLayout
  | functionsNotTopLevel
  | missingFunctionsBrace
  | functionUnterminated
  | malformedFunction
  | duplicateFunction (name : String)
  | statementUnterminated
  | unsupportedStatement (text : String)
  | missingAssignedValue
  | badVariableName (name : String)
  | layoutNotTopLevel
  | layoutNotLiteral
  | layoutSetTwice
  /-- The text was not read to its end. -/
  | unfinished
deriving DecidableEq

/-- The wording of a fault. -/
def Fault.message : Fault → String
  | .blockUnclosed label => s!"The {label} block is missing a closing '\x7d' character"
  | .commentUnclosed => "The comment block is not terminated. Expected '*@'"
  | .emptyExpression => "Explicit expression '@()' is empty"
  | .badStart c => s!"'{c}' is not valid at the start of a code block"
  | .endAfterAt => "Unexpected end of template after '@'"
  | .strayElse => "Unexpected 'else' without a preceding '@if' block"
  | .unsupportedKeyword word => s!"'@{word}' is not supported"
  | .literalUnclosed => "Unterminated string literal"
  | .regionUnclosed what => s!"The {what} is missing its closing delimiter"
  | .strayCloser found what => s!"Unexpected '{found}' in {what}"
  | .missingBrace what => s!"Expected '\x7b' to open the {what} block"
  | .missingParenthesis keyword => s!"Expected '(' after '{keyword}'"
  | .emptyCondition keyword => s!"The '{keyword}' condition is empty"
  | .malformedForeach => "Expected 'var <name> in <expression>' in '@foreach'"
  | .nestedSection => "Section blocks cannot be nested"
  | .sectionNotTopLevel => "The '@section' directive is only allowed at the top level"
  | .missingSectionName => "Expected a section name after '@section'"
  | .duplicateSection name line => s!"Section '{name}' is already defined at line {line}"
  | .directiveNotTopLevel keyword => s!"The '@{keyword}' directive is only allowed at the top level"
  | .missingDirectiveValue keyword => s!"The '@{keyword}' directive requires a value"
  | .badDirectiveName value keyword => s!"'{value}' is not a valid name for '@{keyword}'"
  | .duplicateDirective keyword => s!"The '@{keyword}' directive may only appear once per template"
  | .emptyLayout => "The layout name is empty"
  | .functionsNotTopLevel => "The '@functions' block is only allowed at the top level"
  | .missingFunctionsBrace => "Expected '\x7b' to open the functions block"
  | .functionUnterminated => "Expected ';' after function declaration"
  | .malformedFunction => "Expected '<Name>(<parameters>) => <expression>' in '@functions'"
  | .duplicateFunction name => s!"Function '{name}' is already defined"
  | .statementUnterminated => "Expected ';' after statement"
  | .unsupportedStatement text => s!"Unsupported statement in code block: '{text}'"
  | .missingAssignedValue => "Missing value in assignment"
  | .badVariableName name => s!"'{name}' is not a valid variable name"
  | .layoutNotTopLevel => "Layout can only be assigned at the top level"
  | .layoutNotLiteral => "Layout must be assigned a string literal"
  | .layoutSetTwice => "The layout may only be set once per template"
  | .unfinished => "The template was not read to its end"

/-- A fault of a template and the place it is found at. -/
structure ParseError where
  template : String
  pos : SourcePos
  fault : Fault
deriving DecidableEq

/-- The whole wording of a parse error. -/
def ParseError.message (e : ParseError) : String :=
  s!"Malformed template '{e.template}' at {e.pos.describe}: {e.fault.message}"

end Stencil.Markup
