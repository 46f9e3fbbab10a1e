import Stencil.Json.Draft
import Stencil.Json.Literal
import Stencil.Json.Numeral

/-!
The tokens of JSON texts: brackets, commas and colons, strings, and the values without parts. Between tokens
stand spaces, tabs and line breaks.
-/

namespace Stencil.Json

/-- A token of a JSON text. -/
inductive Token
  | openArray
  | closeArray
  | openObject
  | closeObject
  | comma
  | colon
  /-- A string, if it is a text. -/
  | string (s : Option String)
  /-- A number, truth value or null. -/
  | atom (d : Draft)

/-- The characters that may stand between tokens. -/
def isGap (c : Char) : Bool := c == ' ' || c == '\t' || c == '\n' || c == '\r'

/-- The values that are written as words. -/
def words : List (List Char × Draft) :=
  [("null".toList, .null), ("true".toList, .bool true), ("false".toList, .bool false)]

/-- Reads a word or a number. -/
def readAtom? (cs : List Char) : Option (Draft × List Char) :=
  match words.find? (·.1.isPrefixOf cs) with
  | some (word, d) => some (d, cs.drop word.length)
  | none => (readNumber? cs).map fun r => (.ofNumber r.1, r.2)

/-- Reads the token that starts with the next character. -/
def readToken? (c : Char) (rest : List Char) : Option (Token × List Char) :=
  match c with
  | '[' => some (.openArray, rest)
  | ']' => some (.closeArray, rest)
  | '{' => some (.openObject, rest)
  | '}' => some (.closeObject, rest)
  | ',' => some (.comma, rest)
  | ':' => some (.colon, rest)
  | '"' => (readUnits rest).map fun r => (.string ((joinUnits? r.1).map String.ofList), r.2)
  | _ => (readAtom? (c :: rest)).map fun r => (.atom r.1, r.2)

/-- The tokens of a text after those read so far, last one first; at most `fuel` characters start a token or
are skipped. -/
def readTokens? : Nat → List Token → List Char → Option (List Token)
  | _, done, [] => some done.reverse
  | 0, _, _ => none
  | fuel + 1, done, c :: rest =>
    if isGap c then readTokens? fuel done rest
    else match readToken? c rest with
      | none => none
      | some (t, rest) => readTokens? fuel (t :: done) rest

/-- The tokens of a text. -/
def tokens? (cs : List Char) : Option (List Token) := readTokens? cs.length [] cs

end Stencil.Json
