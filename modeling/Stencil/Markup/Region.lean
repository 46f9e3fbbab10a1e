import Stencil.Text.Cursor

/-!
Regions of embedded code. Code between brackets is delimited but not interpreted: brackets of the three
kinds nest, and a string literal runs from a quote to the next quote that no backslash escapes. A region
can be split at its top-level semicolons and searched for a text outside brackets and literals.
-/

namespace Stencil.Markup

/-- A stretch of template text and the place of its first character. -/
structure Fragment where
  text : List Char
  start : SourcePos

namespace Fragment

/-- The fragment without the blanks at its ends. -/
def trim (f : Fragment) : Fragment :=
  ⟨Text.trim f.text, f.start.after (f.text.takeWhile Text.isBlank)⟩

/-- The fragment holds nothing but blanks. -/
def isBlank (f : Fragment) : Bool := Text.allBlank f.text

/-- The fragment that starts after the first `n` characters. -/
def drop (f : Fragment) (n : Nat) : Fragment :=
  ⟨f.text.drop n, f.start.after (f.text.take n)⟩

end Fragment

/-- Why no region could be read. -/
inductive Unmatched
  /-- The string literal that starts here is not closed on its line. -/
  | literal (opened : SourcePos)
  /-- The text ends before the region does. -/
  | unclosed
  /-- This closing bracket does not match the innermost open one. -/
  | mismatched (found : Char) (pos : SourcePos)
deriving DecidableEq

/-- The closing bracket of an opening one. -/
def closerOf? : Char → Option Char
  | '(' => some ')'
  | '[' => some ']'
  | '{' => some '}'
  | _ => none

/-- The closing brackets. -/
def isCloser (c : Char) : Bool := c == ')' || c == ']' || c == '}'

/-- Where a scan of code stands. -/
inductive Mode
  /-- Outside string literals. -/
  | code
  /-- Inside the literal that was opened here. -/
  | literal (opened : SourcePos)
  /-- After a backslash inside the literal that was opened here. -/
  | escaped (opened : SourcePos)
deriving DecidableEq

/-! ### Regions -/

/-- Reads up to the bracket that closes the last of `expected`. The result is what stands before it, and
the cursor after it. -/
def scanRegion (expected : List Char) (mode : Mode) (pos : SourcePos) :
    List Char → Except Unmatched (List Char × Cursor)
  | [] => match mode with
    | .code => .error .unclosed
    | .literal opened | .escaped opened => .error (.literal opened)
  | c :: cs =>
    let continueWith (expected : List Char) (mode : Mode) : Except Unmatched (List Char × Cursor) :=
      (scanRegion expected mode (pos.next c) cs).map fun r => (c :: r.1, r.2)
    match mode with
    | .code =>
      if c = '"' then continueWith expected (.literal pos)
      else match closerOf? c with
        | some close => continueWith (close :: expected) .code
        | none =>
          if isCloser c then
            match expected with
            | [] => .error (.mismatched c pos)
            | e :: outer =>
              if e ≠ c then .error (.mismatched c pos)
              else if outer.isEmpty then .ok ([], ⟨cs, pos.next c⟩)
              else continueWith outer .code
          else continueWith expected .code
    | .literal opened =>
      if c = '\\' then continueWith expected (.escaped opened)
      else if c = '"' then continueWith expected .code
      else if c = '\n' then .error (.literal opened)
      else continueWith expected (.literal opened)
    | .escaped opened => continueWith expected (.literal opened)

/-- Reads the region that starts with the opening bracket under the cursor. The result is its inner text
and the cursor after its closing bracket. -/
def balanced (c : Cursor) : Except Unmatched (Fragment × Cursor) :=
  match c.rest with
  | [] => .error .unclosed
  | x :: xs => match closerOf? x with
    | none => .error .unclosed
    | some close =>
      (scanRegion [close] .code (c.pos.next x) xs).map fun r => (⟨r.1, c.pos.next x⟩, r.2)

/-! ### Splitting and searching -/

/-- The pieces of a text between its top-level semicolons, where `start` is the place at which the current
piece starts and `piece` holds what was read of it, last character first. -/
def splitPieces (depth : Nat) (mode : Mode) (start pos : SourcePos) (piece : List Char) :
    List Char → List Fragment
  | [] => [⟨piece.reverse, start⟩]
  | c :: cs =>
    let continueWith (depth : Nat) (mode : Mode) : List Fragment :=
      splitPieces depth mode start (pos.next c) (c :: piece) cs
    match mode with
    | .code =>
      if c = '"' then continueWith depth (.literal pos)
      else if (closerOf? c).isSome then continueWith (depth + 1) .code
      else if isCloser c then continueWith (depth - 1) .code
      else if c = ';' ∧ depth = 0 then
        ⟨piece.reverse, start⟩ :: splitPieces 0 .code (pos.next c) (pos.next c) [] cs
      else continueWith depth .code
    | .literal opened =>
      if c = '\\' then continueWith depth (.escaped opened)
      else if c = '"' then continueWith depth .code
      else continueWith depth (.literal opened)
    | .escaped opened => continueWith depth (.literal opened)

/-- The pieces of a fragment between its top-level semicolons; the last one follows the last semicolon. -/
def splitStatements (f : Fragment) : List Fragment :=
  splitPieces 0 .code f.start f.start [] f.text

/-- The number of characters before the first place at which the needle starts outside brackets and string
literals. -/
def searchTopLevel (needle : List Char) (depth : Nat) (mode : Mode) (pos : SourcePos) :
    List Char → Option Nat
  | [] => none
  | c :: cs =>
    let continueWith (depth : Nat) (mode : Mode) : Option Nat :=
      (searchTopLevel needle depth mode (pos.next c) cs).map (· + 1)
    match mode with
    | .code =>
      if c = '"' then continueWith depth (.literal pos)
      else if (closerOf? c).isSome then continueWith (depth + 1) .code
      else if isCloser c then continueWith (depth - 1) .code
      else if depth = 0 ∧ needle.isPrefixOf (c :: cs) then some 0
      else continueWith depth .code
    | .literal opened =>
      if c = '\\' then continueWith depth (.escaped opened)
      else if c = '"' then continueWith depth .code
      else continueWith depth (.literal opened)
    | .escaped opened => continueWith depth (.literal opened)

/-- Where the needle first starts outside brackets and string literals. -/
def findTopLevel (text needle : List Char) : Option Nat :=
  searchTopLevel needle 0 .code .start text

end Stencil.Markup
