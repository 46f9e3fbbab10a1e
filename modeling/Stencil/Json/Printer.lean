import Stencil.Json.Literal
import Stencil.Json.Value

/-!
Writing JSON texts: on one line without spaces, or indented by two spaces a level. Members are written in
the order in which the object holds them.
-/

namespace Stencil.Json

/-- Pieces joined by a separator. -/
def joined (sep : List Char) : List (List Char) → List Char
  | [] => []
  | [piece] => piece
  | piece :: pieces => piece ++ sep ++ joined sep pieces

mutual

/-- The text of a value on one line. -/
def compactChars : Json → List Char
  | null => "null".toList
  | bool b => (if b then "true" else "false").toList
  | number n => n.text
  | string s => quoteChars s.toList
  | array items => '[' :: joined [','] (compactItems items) ++ [']']
  | object members => '{' :: joined [','] (compactMembers members) ++ ['}']

/-- The texts of items. -/
def compactItems : List Json → List (List Char)
  | [] => []
  | v :: vs => compactChars v :: compactItems vs

/-- The texts of members. -/
def compactMembers : List (String × Json) → List (List Char)
  | [] => []
  | (name, v) :: rest => (quoteChars name.toList ++ ':' :: compactChars v) :: compactMembers rest

end

/-- The start of a line at a depth. -/
def newLine (depth : Nat) : List Char := '\n' :: List.replicate (2 * depth) ' '

/-- Pieces on lines of their own between brackets; without pieces the brackets stand together. -/
def bracketed (openBracket closeBracket : Char) (depth : Nat) (pieces : List (List Char)) : List Char :=
  if pieces.isEmpty then [openBracket, closeBracket]
  else
    openBracket :: newLine (depth + 1) ++ joined (',' :: newLine (depth + 1)) pieces ++ newLine depth ++
      [closeBracket]

mutual

/-- The text of a value at a depth, on lines of their own for all parts. -/
def prettyChars (depth : Nat) : Json → List Char
  | array items => bracketed '[' ']' depth (prettyItems (depth + 1) items)
  | object members => bracketed '{' '}' depth (prettyMembers (depth + 1) members)
  | null => "null".toList
  | bool b => (if b then "true" else "false").toList
  | number n => n.text
  | string s => quoteChars s.toList

/-- The texts of items at a depth. -/
def prettyItems (depth : Nat) : List Json → List (List Char)
  | [] => []
  | v :: vs => prettyChars depth v :: prettyItems depth vs

/-- The texts of members at a depth. -/
def prettyMembers (depth : Nat) : List (String × Json) → List (List Char)
  | [] => []
  | (name, v) :: rest =>
    (quoteChars name.toList ++ ':' :: ' ' :: prettyChars depth v) :: prettyMembers depth rest

end

/-- The text of a value on one line. -/
def compact (v : Json) : String := String.ofList v.compactChars

/-- The text of a value on indented lines. -/
def pretty (v : Json) : String := String.ofList (v.prettyChars 0)

end Stencil.Json
