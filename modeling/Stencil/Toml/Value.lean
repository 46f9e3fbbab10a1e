import Stencil.Json.Value

/-!
TOML values. Of a number with a point and of a time only the text is kept.
-/

namespace Stencil

/-- A TOML value. -/
inductive Toml
  | string (s : String)
  | integer (n : Int)
  | float (text : String)
  | bool (b : Bool)
  | time (text : String)
  | array (items : List Toml)
  | table (members : List (String × Toml))

namespace Toml

/-- The characters of a line: all but controls, of which the tab is allowed. -/
def isPlain (c : Char) : Bool := c == '\t' || (' ' ≤ c && c != '\x7f')

/-- The blanks within a line. -/
def isSpace (c : Char) : Bool := c == ' ' || c == '\t'

/-- A text without its leading blanks. -/
def skipSpace (cs : List Char) : List Char := cs.dropWhile isSpace

/-- What follows the end of a line, if one comes next. -/
def newline? : List Char → Option (List Char)
  | '\n' :: rest => some rest
  | '\r' :: '\n' :: rest => some rest
  | _ => none

/-- What follows the end of a line or of the text, if one comes next. -/
def lineEnd? : List Char → Option (List Char)
  | [] => some []
  | cs => newline? cs

/-- What follows a comment, if one comes next. -/
def skipComment : List Char → List Char
  | '#' :: rest => rest.dropWhile isPlain
  | cs => cs

/-- What follows blanks, comments and line ends; a comment ends with its line. -/
def skipLines : Nat → List Char → Option (List Char)
  | 0, cs => some cs
  | fuel + 1, cs =>
    match skipSpace cs with
    | '#' :: rest => do skipLines fuel (← newline? (rest.dropWhile isPlain))
    | rest => match newline? rest with
      | some rest => skipLines fuel rest
      | none => some rest

/-- What follows blanks, comments and line ends. -/
def skipAll (cs : List Char) : Option (List Char) := skipLines (cs.length + 1) cs

end Toml

end Stencil
