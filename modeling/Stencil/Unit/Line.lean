import Stencil.Unit.Pragma

/-!
The lines of a unit's text. A line of code is indented by its depth; a pragma stands at the start of its
line and describes the line of code after it. With pragmas off the same lines are written without them.
-/

namespace Stencil.Unit

/-- A line of a unit's text. -/
inductive Line
  | blank
  | code (depth : Nat) (text : String)
  | pragma (p : Pragma)
deriving DecidableEq

namespace Line

/-- The number of spaces per level of depth. -/
def indentWidth : Nat := 4

/-- The text of a line without its line feed. -/
def text : Line → String
  | blank => ""
  | code depth text => "".pushn ' ' (depth * indentWidth) ++ text
  | pragma p => p.text

/-- The text of lines, each ended by a line feed. -/
def render (lines : List Line) : String :=
  lines.foldl (fun text line => text ++ line.text ++ "\n") ""

/-- The line is a pragma. -/
def isPragma : Line → Bool
  | pragma _ => true
  | _ => false

/-- Code on one line: line breaks become spaces, so that every other character keeps its column. -/
def singleLine (code : String) : String :=
  code.map fun c => if c = '\r' ∨ c = '\n' then ' ' else c

/-- A line that holds embedded code between two texts, after a pragma that tells where the code stands in
the template if that place is given. -/
def mapped (depth : Nat) (pos : Option SourcePos) (before code after : String) : List Line :=
  let line := Line.code depth (before ++ singleLine code ++ after)
  match pos with
  | none => [line]
  | some pos => [.pragma ⟨pos, depth * indentWidth + before.length + 1⟩, line]

/-- The lines to write, with pragmas or without. -/
def select (pragmas : Bool) (lines : List Line) : List Line :=
  if pragmas then lines else lines.filter (!·.isPragma)

end Line

end Stencil.Unit
