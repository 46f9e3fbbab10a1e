import Stencil.Json.Literal
import Stencil.Json.Numeral
import Stencil.Text.Cursor
import Stencil.Unit.Fault
import Stencil.Unit.Pragma

/-!
Splitting the text of a unit into tokens. Blanks and comments stand between tokens; a pragma takes up the
rest of a line that holds nothing but blanks before it.
-/

namespace Stencil.Unit

/-- The characters of a literal up to its closing quote, and what follows it. A backslash takes the next
character along; a literal ends on its line. -/
def takeLiteral? : List Char → Option (List Char × List Char)
  | [] => none
  | '\n' :: _ => none
  | '"' :: rest => some (['"'], rest)
  | ['\\'] => none
  | '\\' :: c :: rest => (takeLiteral? rest).map fun r => ('\\' :: c :: r.1, r.2)
  | c :: rest => (takeLiteral? rest).map fun r => (c :: r.1, r.2)

/-- The characters of a number: a sign, digits, and digits after a point. -/
def takeNumber (cs : List Char) : List Char :=
  let sign := cs.takeWhile (· == '-') |>.take 1
  let rest := cs.drop sign.length
  let whole := rest.takeWhile Char.isDigit
  match rest.drop whole.length with
  | '.' :: d :: rest =>
    if d.isDigit then sign ++ whole ++ '.' :: (d :: rest).takeWhile Char.isDigit else sign ++ whole
  | _ => sign ++ whole

/-- Reads the string literal whose opening quote is under the cursor. -/
def readString (c : Cursor) : Except Found (Token × Cursor) :=
  match takeLiteral? (c.rest.drop 1) with
  | none => .error (c.pos, .literalUnclosed)
  | some (body, _) =>
    match Json.unquoteChars? ('"' :: body) with
    | none => .error (c.pos, .invalidLiteral)
    | some text => .ok (.string (String.ofList text), c.skip (body.length + 1))

/-- Reads the number literal under the cursor. -/
def readNumber (c : Cursor) : Except Found (Token × Cursor) :=
  let literal := takeNumber c.rest
  match Json.readNumber? literal with
  | some (some n, []) => .ok (.number n, c.skip literal.length)
  | _ => .error (c.pos, .invalidNumber (String.ofList literal))

/-- Reads the token that starts with the character `x` under the cursor. -/
def readToken (x : Char) (c : Cursor) : Except Found (Token × Cursor) :=
  if Text.isNameStart x then
    let (name, c) := c.takeWhile Text.isNameChar
    .ok (.name (String.ofList name), c)
  else if x = '"' then readString c
  else if x.isDigit || x == '-' && c.peekSecond?.any Char.isDigit then readNumber c
  else match Symbol.all.find? fun s => s.text.toList.isPrefixOf c.rest with
    | some s => .ok (.symbol s, c.skip s.text.length)
    | none => .error (c.pos, .unexpectedCharacter x)

/-- Reads the pragma whose line is under the cursor. -/
def readPragma (c : Cursor) : Except Found (Token × Cursor) :=
  let (line, d) := c.line
  match Pragma.ofLine? line with
  | some p => .ok (.pragma p.template, d)
  | none => .error (c.pos, .malformedPragma (String.ofList (Text.trim line)))

/-- The tokens from the cursor on; `lineStart` tells that nothing but blanks has been read of the line. -/
def readLexemes : Nat → Bool → Cursor → Except Found (List Lexeme)
  | 0, _, c => if c.rest.isEmpty then .ok [] else .error (c.pos, .unfinished)
  | fuel + 1, lineStart, c =>
    match c.rest with
    | [] => .ok []
    | x :: rest =>
      if x = '\n' then readLexemes fuel true c.next
      else if Text.isBlank x then readLexemes fuel lineStart c.next
      else if x = '/' ∧ rest.head? = some '/' then readLexemes fuel lineStart c.line.2
      else if x = '#' ∧ lineStart then do
        let (token, d) ← readPragma c
        return ⟨token, c.pos⟩ :: (← readLexemes fuel true d)
      else do
        let (token, d) ← readToken x c
        return ⟨token, c.pos⟩ :: (← readLexemes fuel false d)

/-- The tokens of a unit. -/
def lexemes (source : List Char) : Except Found (List Lexeme) :=
  readLexemes source.length true (.ofText source)

end Stencil.Unit
