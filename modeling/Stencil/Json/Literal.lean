import Stencil.Text.Hex

/-!
String literals: text between quotes, where a backslash starts an escape. Writing escapes the quote, the
backslash and the control characters below the space, and nothing else; reading undoes every escape and
refuses raw control characters, unknown escapes and halves of surrogate pairs. A literal is read in two steps,
since one that holds half a pair still has an end. Reading what was written gives the text back.
-/

namespace Stencil.Json

open Text (hexDigit hexValue?)

/-! ### Writing -/

/-- The written form of one character. -/
def escapeChar (c : Char) : List Char :=
  if c = '"' then ['\\', '"']
  else if c = '\\' then ['\\', '\\']
  else if c = '\x08' then ['\\', 'b']
  else if c = '\x0c' then ['\\', 'f']
  else if c = '\n' then ['\\', 'n']
  else if c = '\r' then ['\\', 'r']
  else if c = '\t' then ['\\', 't']
  else if c.toNat < 32 then
    ['\\', 'u', '0', '0', hexDigit (c.toNat / 16), hexDigit (c.toNat % 16)]
  else [c]

/-- The literal of a text. -/
def quoteChars (cs : List Char) : List Char :=
  '"' :: (cs.flatMap escapeChar ++ ['"'])

/-- The literal of a text. -/
def quote (s : String) : String := String.ofList (quoteChars s.toList)

/-! ### Reading -/

/-- The value of four digits to base sixteen. -/
def hexUnit? (a b c d : Char) : Option Nat := do
  let a ← hexValue? a
  let b ← hexValue? b
  let c ← hexValue? c
  let d ← hexValue? d
  return ((a * 16 + b) * 16 + c) * 16 + d

/-- The first halves of surrogate pairs. -/
def isHighSurrogate (n : Nat) : Bool := 0xD800 ≤ n && n < 0xDC00

/-- The second halves of surrogate pairs. -/
def isLowSurrogate (n : Nat) : Bool := 0xDC00 ≤ n && n < 0xE000

/-- The character that a pair of surrogates stands for. -/
def joinSurrogates (high low : Nat) : Char :=
  Char.ofNat (0x10000 + (high - 0xD800) * 0x400 + (low - 0xDC00))

/-- The character of an escape with one letter. -/
def shortEscape? : Char → Option Char
  | '"' => some '"'
  | '\\' => some '\\'
  | '/' => some '/'
  | 'b' => some '\x08'
  | 'f' => some '\x0c'
  | 'n' => some '\n'
  | 'r' => some '\r'
  | 't' => some '\t'
  | _ => none

/-- Reads a literal whose opening quote has been read. The result is its units and what follows it; a unit is
the number of a character or of an escape, which may be half a surrogate pair. -/
def readUnits : List Char → Option (List Nat × List Char)
  | [] => none
  | '"' :: rest => some ([], rest)
  | '\\' :: 'u' :: a :: b :: c :: d :: rest => do
    let unit ← hexUnit? a b c d
    let (units, rest) ← readUnits rest
    return (unit :: units, rest)
  | '\\' :: e :: rest => do
    let c ← shortEscape? e
    let (units, rest) ← readUnits rest
    return (c.toNat :: units, rest)
  | c :: rest =>
    if c.toNat < 32 ∨ c = '\\' then none
    else do
      let (units, rest) ← readUnits rest
      return (c.toNat :: units, rest)

/-- The text of units; nothing if half a surrogate pair stands alone. -/
def joinUnits? : List Nat → Option (List Char)
  | [] => some []
  | [unit] => if isHighSurrogate unit || isLowSurrogate unit then none else some [Char.ofNat unit]
  | unit :: next :: rest =>
    if isHighSurrogate unit then
      if isLowSurrogate next then (joinUnits? rest).map (joinSurrogates unit next :: ·) else none
    else if isLowSurrogate unit then none
    else (joinUnits? (next :: rest)).map (Char.ofNat unit :: ·)

/-- Reads a literal whose opening quote has been read. The result is its text and what follows it. -/
def readLiteral (cs : List Char) : Option (List Char × List Char) := do
  let (units, rest) ← readUnits cs
  return (← joinUnits? units, rest)

/-- The text of a literal that takes up the whole input. -/
def unquoteChars? : List Char → Option (List Char)
  | '"' :: rest => match readLiteral rest with
    | some (text, []) => some text
    | _ => none
  | _ => none

/-- The text of a literal that takes up the whole input. -/
def unquote? (s : String) : Option String := (unquoteChars? s.toList).map String.ofList

end Stencil.Json
