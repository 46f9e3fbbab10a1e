import Stencil.Text.Hex
import Stencil.Toml.Value

/-!
TOML strings. A string stands between quotes, with escapes, or between apostrophes, without any; three of
either let it go over several lines, of which an empty first one does not count. Writing prefers the form that
needs no escapes.
-/

namespace Stencil.Toml

/-! ### Reading -/

/-- The character of an escape with one letter. -/
def shortEscape? : Char → Option Char
  | 'b' => some '\x08'
  | 't' => some '\t'
  | 'n' => some '\n'
  | 'f' => some '\x0c'
  | 'r' => some '\r'
  | '"' => some '"'
  | '\\' => some '\\'
  | _ => none

/-- The character with a number, which must not be a surrogate. -/
def scalar? (n : Nat) : Option Char := if n.isValidChar then some (Char.ofNat n) else none

/-- The character whose number takes up a number of digits to base sixteen. -/
def hexEscape? (digits : Nat) (cs : List Char) : Option (Char × List Char) := do
  if cs.length < digits then none
  let n ← (cs.take digits).foldlM (fun n c => (Text.hexValue? c).map (n * 16 + ·)) 0
  return (← scalar? n, cs.drop digits)

/-- The character of an escape, whose backslash has been read. -/
def escape? : List Char → Option (Char × List Char)
  | 'u' :: rest => hexEscape? 4 rest
  | 'U' :: rest => hexEscape? 8 rest
  | c :: rest => (shortEscape? c).map (·, rest)
  | [] => none

/-- The rest of a string between quotes on one line. -/
def readBasic : Nat → List Char → Option (List Char × List Char)
  | 0, _ => none
  | fuel + 1, cs =>
    match cs with
    | [] => none
    | '"' :: rest => some ([], rest)
    | '\\' :: rest => do
      let (c, rest) ← escape? rest
      let (text, rest) ← readBasic fuel rest
      return (c :: text, rest)
    | c :: rest =>
      if isPlain c then (readBasic fuel rest).map fun (text, rest) => (c :: text, rest) else none

/-- The rest of a string between apostrophes on one line. -/
def readRaw : List Char → Option (List Char × List Char)
  | [] => none
  | '\'' :: rest => some ([], rest)
  | c :: rest => if isPlain c then (readRaw rest).map fun (text, rest) => (c :: text, rest) else none

/-- A text without its leading blanks and line ends. -/
def skipBreaks : Nat → List Char → List Char
  | 0, cs => cs
  | fuel + 1, cs =>
    match newline? (skipSpace cs) with
    | some rest => skipBreaks fuel rest
    | none => skipSpace cs

/-- What is left of a text after a backslash at the end of a line: blanks and line ends are dropped. -/
def continued? (cs : List Char) : Option (List Char) := do
  let rest ← newline? (skipSpace cs)
  return skipBreaks rest.length rest

/-- The quotes at the end of a string over several lines: what of them belongs to the text, and whether the
string ends. -/
def closingQuotes (mark : Char) (count : Nat) : Option (List Char × Bool) :=
  if count < 3 then some (List.replicate count mark, false)
  else if count ≤ 5 then some (List.replicate (count - 3) mark, true)
  else none

/-- The rest of a string over several lines. -/
def readLong (mark : Char) : Nat → List Char → Option (List Char × List Char)
  | 0, _ => none
  | fuel + 1, cs =>
    match cs with
    | [] => none
    | c :: rest =>
      if c = mark then do
        let (text, ends) ← closingQuotes mark ((c :: rest).takeWhile (· == mark)).length
        let rest := rest.dropWhile (· == mark)
        if ends then return (text, rest)
        let (more, rest) ← readLong mark fuel rest
        return (text ++ more, rest)
      else if c = '\\' ∧ mark = '"' then
        match continued? rest with
        | some rest => readLong mark fuel rest
        | none => do
          let (c, rest) ← escape? rest
          let (text, rest) ← readLong mark fuel rest
          return (c :: text, rest)
      else match newline? (c :: rest) with
        | some rest => (readLong mark fuel rest).map fun (text, rest) => ('\n' :: text, rest)
        | none =>
          if isPlain c then (readLong mark fuel rest).map fun (text, rest) => (c :: text, rest) else none

/-- A text without an empty first line. -/
def dropFirstNewline (cs : List Char) : List Char := (newline? cs).getD cs

/-- A string on one line, as a key may be. -/
def readShort? : List Char → Option (List Char × List Char)
  | '"' :: rest => readBasic (rest.length + 1) rest
  | '\'' :: rest => readRaw rest
  | _ => none

/-- A string. -/
def readString? : List Char → Option (List Char × List Char)
  | '"' :: '"' :: '"' :: rest => readLong '"' (rest.length + 1) (dropFirstNewline rest)
  | '\'' :: '\'' :: '\'' :: rest => readLong '\'' (rest.length + 1) (dropFirstNewline rest)
  | cs => readShort? cs

/-! ### Writing -/

/-- The longest run of a character in a text, given the length of the run before it. -/
def longestRun (mark : Char) (run : Nat) : List Char → Nat
  | [] => run
  | c :: cs => if c = mark then longestRun mark (run + 1) cs else max run (longestRun mark 0 cs)

/-- A control character other than a tab or a line feed. -/
def needsEscape (c : Char) : Bool := (c < ' ' && c != '\t' && c != '\n') || c == '\x7f'

/-- The digits of a number to base sixteen in upper case. -/
def upperHex (n : Nat) : Char := (Text.hexDigit n).toUpper

/-- The escape of a character. -/
def escapeChar (c : Char) : List Char :=
  if c = '\x08' then ['\\', 'b']
  else if c = '\t' then ['\\', 't']
  else if c = '\n' then ['\\', 'n']
  else if c = '\x0c' then ['\\', 'f']
  else if c = '\r' then ['\\', 'r']
  else if c = '\\' then ['\\', '\\']
  else if c < ' ' ∨ c = '\x7f' then
    ['\\', 'u', '0', '0', upperHex (c.toNat / 16), upperHex (c.toNat % 16)]
  else [c]

/-- A text with escapes, in which quotes may stand in runs of a limited length and lines may end. -/
def escapeAll (quotes : Nat) (lines : Bool) (run : Nat) : List Char → List Char
  | [] => []
  | c :: cs =>
    if c = '"' then
      if run < quotes then c :: escapeAll quotes lines (run + 1) cs
      else '\\' :: c :: escapeAll quotes lines 0 cs
    else if c = '\n' ∧ lines then c :: escapeAll quotes lines 0 cs
    else escapeChar c ++ escapeAll quotes lines 0 cs

/-- The start of a string over several lines. -/
def opening (mark : List Char) (hasLines : Bool) : List Char := mark ++ if hasLines then ['\n'] else []

/-- The written form of a text: between quotes if they need no escapes but for tabs, else between apostrophes
if they can, and else with escapes. -/
def quote (s : String) : List Char :=
  let cs := s.toList
  let codes := cs.any needsEscape
  let backslash := cs.contains '\\'
  let lines := cs.contains '\n'
  let quotes := longestRun '"' 0 cs
  let apostrophes := longestRun '\'' 0 cs
  if !codes && !backslash && quotes == 0 && !lines then '"' :: escapeAll 0 false 0 cs ++ ['"']
  else if !codes && apostrophes == 0 && !lines then '\'' :: cs ++ ['\'']
  else if !codes && !backslash && quotes ≤ 2 then
    opening "\"\"\"".toList lines ++ escapeAll 2 true 0 cs ++ "\"\"\"".toList
  else if !codes && apostrophes ≤ 2 then opening "'''".toList lines ++ cs ++ "'''".toList
  else if lines then opening "\"\"\"".toList lines ++ escapeAll 2 true 0 cs ++ "\"\"\"".toList
  else '"' :: escapeAll 0 false 0 cs ++ ['"']

end Stencil.Toml
