import Stencil.Unit.Token

/-!
Malformed units: why the text of a unit cannot be read.
-/

namespace Stencil.Unit

/-- Why a unit cannot be read. -/
inductive Fault
  | unexpectedCharacter (c : Char)
  | literalUnclosed
  /-- A closed literal with a control character or an escape that stands for nothing. -/
  | invalidLiteral
  | invalidNumber (text : String)
  | malformedPragma (text : String)
  /-- Something else was expected than this token, or than the end of the unit. -/
  | expected (what : String) (found : Option Token)
  | unknownMember (keyword : String)
  | unknownStatement (keyword : String)
  /-- The unit was not read to its end. -/
  | unfinished

/-- The wording of a fault. -/
def Fault.message : Fault → String
  | unexpectedCharacter c => s!"Unexpected character '{c}'"
  | literalUnclosed => "Unterminated string literal"
  | invalidLiteral => "Invalid string literal: control character or unknown escape"
  | invalidNumber text => s!"Invalid number literal '{text}'"
  | malformedPragma text => s!"Malformed pragma '{text}'"
  | expected what (some t) => s!"Expected {what} but found {t.describe}"
  | expected what none => s!"Expected {what} but reached the end of the unit"
  | unknownMember keyword => s!"Unknown class member '{keyword}'"
  | unknownStatement keyword => s!"Unknown statement '{keyword}'"
  | unfinished => "The unit was not read to its end"

/-- A fault and the place it is found at. -/
abbrev Found := SourcePos × Fault

end Stencil.Unit
