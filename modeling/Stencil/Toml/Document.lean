import Stencil.Text.Name
import Stencil.Toml.Quoted
import Stencil.Toml.Scalar
import Stencil.Toml.Table

/-!
Reading TOML documents. A document is a sequence of lines, each a header, a key with its value, or empty; only
values may go over several lines. Arrays and inline tables nest to a limited depth, and keys have a limited
number of parts.
-/

namespace Stencil.Toml

/-! ### Keys -/

/-- The characters of keys without quotes. -/
def isBareKeyChar (c : Char) : Bool := c.isAlphanum || c == '_' || c == '-'

/-- One part of a key. -/
def readKeyPart? (cs : List Char) : Option (String × List Char) :=
  match cs with
  | '"' :: _ | '\'' :: _ => (readShort? cs).map fun (text, rest) => (String.ofList text, rest)
  | _ =>
    let part := cs.takeWhile isBareKeyChar
    if part.isEmpty then none else some (String.ofList part, cs.drop part.length)

/-- The parts of a key, with blanks around each, and what follows them. -/
def readKeyParts? : Nat → List Char → Option (List String × List Char)
  | 0, _ => none
  | fuel + 1, cs => do
    let (part, rest) ← readKeyPart? (skipSpace cs)
    match skipSpace rest with
    | '.' :: rest => do
      let (parts, rest) ← readKeyParts? fuel rest
      return (part :: parts, rest)
    | rest => return ([part], rest)

/-- Arrays and inline tables nest less deep than this, and keys have less parts. -/
def nestingLimit : Nat := 80

/-- A key split into its path and its last part, and what follows it. -/
def readKey? (cs : List Char) : Option (List String × String × List Char) := do
  let (parts, rest) ← readKeyParts? cs.length cs
  let last ← parts.getLast?
  if nestingLimit ≤ parts.length then none else some (parts.dropLast, last, rest)

/-! ### Values -/

/-- Reads a value and what follows it. -/
abbrev ValueReader := List Char → Option (Toml × List Char)

/-- The rest of an array, whose items a comma may follow. -/
def readItems (read : ValueReader) : Nat → List Char → Option (List Toml × List Char)
  | 0, _ => none
  | fuel + 1, cs => do
    match ← skipAll cs with
    | ']' :: rest => return ([], rest)
    | cs => do
      let (v, rest) ← read cs
      match ← skipAll rest with
      | ',' :: rest => do
        let (vs, rest) ← readItems read fuel rest
        return (v :: vs, rest)
      | ']' :: rest => return ([v], rest)
      | _ => none

/-- A key with its value, and what follows them. -/
def readKeyValue? (read : ValueReader) (cs : List Char) :
    Option (List String × String × Toml × List Char) := do
  let (path, key, rest) ← readKey? cs
  let (v, rest) ← read (skipSpace (← after? '=' rest))
  return (path, key, v, rest)

/-- The rest of an inline table that is not empty. -/
def readMembers (read : ValueReader) : Nat → Slots → List Char → Option (Slots × List Char)
  | 0, _, _ => none
  | fuel + 1, slots, cs => do
    let (path, key, v, rest) ← readKeyValue? read cs
    let slots ← slots.define path key v
    match skipSpace rest with
    | ',' :: rest => readMembers read fuel slots rest
    | '}' :: rest => return (slots, rest)
    | _ => none

/-- A value in which arrays and inline tables nest to a depth, and what follows it. -/
def readValue : Nat → ValueReader
  | depth, cs =>
    match cs, depth with
    | '[' :: rest, depth + 1 =>
      (readItems (readValue depth) (rest.length + 1) rest).map fun (vs, rest) => (.array vs, rest)
    | '{' :: rest, depth + 1 =>
      match skipSpace rest with
      | '}' :: rest => some (.table [], rest)
      | rest => (readMembers (readValue depth) (rest.length + 1) [] rest).map fun (slots, rest) =>
          (.table (slotsToToml slots), rest)
    | '"' :: _, _ | '\'' :: _, _ => (readString? cs).map fun (text, rest) => (.string (String.ofList text), rest)
    | cs, _ => readScalar? cs

/-! ### Lines -/

/-- What has been read of a document: its tables, and the header that the keys belong to. -/
structure Reading where
  slots : Slots := []
  header : List String := []

/-- What follows the end of a line with or without a comment. -/
def endLine? (cs : List Char) : Option (List Char) := lineEnd? (skipComment (skipSpace cs))

/-- Reads a header whose first bracket has been read. -/
def readHeader? (r : Reading) (cs : List Char) : Option (Reading × List Char) :=
  match cs with
  | '[' :: cs => do
    let (path, key, rest) ← readKey? cs
    let rest ← endLine? (← after? ']' (← after? ']' rest))
    return (⟨← r.slots.openItem path key, path ++ [key]⟩, rest)
  | cs => do
    let (path, key, rest) ← readKey? cs
    let rest ← endLine? (← after? ']' rest)
    return (⟨← r.slots.openTable path key, path ++ [key]⟩, rest)

/-- Reads a line that is a key with its value. -/
def readPair? (r : Reading) (cs : List Char) : Option (Reading × List Char) := do
  let (path, key, v, rest) ← readKeyValue? (readValue (nestingLimit - 1)) cs
  let rest ← endLine? rest
  return ({ r with slots := ← r.slots.defineAt r.header path key v }, rest)

/-- Reads the lines of a document. -/
def readDocument : Nat → Reading → List Char → Option Reading
  | 0, _, _ => none
  | fuel + 1, r, cs =>
    match skipSpace cs with
    | [] => some r
    | '#' :: rest => do readDocument fuel r (← lineEnd? (rest.dropWhile isPlain))
    | '[' :: rest => do
      let (r, rest) ← readHeader? r rest
      readDocument fuel r rest
    | rest => match newline? rest with
      | some rest => readDocument fuel r rest
      | none => do
        let (r, rest) ← readPair? r rest
        readDocument fuel r rest

/-- A text without a byte order mark. -/
def dropMark : List Char → List Char
  | '\ufeff' :: cs => cs
  | cs => cs

/-- The members of the table that a text spells. -/
def parse? (text : String) : Option (List (String × Toml)) := do
  let cs := dropMark text.toList
  let r ← readDocument (cs.length + 1) {} cs
  return slotsToToml r.slots

end Stencil.Toml
