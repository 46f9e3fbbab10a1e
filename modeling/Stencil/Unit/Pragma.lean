import Stencil.Text.Blank
import Stencil.Text.Cut
import Stencil.Text.Position

/-!
Line pragmas. A pragma `#line L:C @G` says that the code which stands at column G of the next line of the
unit stands at line L, column C of the template.
-/

namespace Stencil.Unit

/-- A place in a template and the column at which its code stands in the next line of the unit. -/
structure Pragma where
  template : SourcePos
  column : Nat
deriving DecidableEq

namespace Pragma

/-- The line of a pragma. -/
def text (p : Pragma) : String :=
  s!"#line {p.template.line}:{p.template.column} @{p.column}"

/-- The pragma that a line holds. -/
def ofLine? (line : List Char) : Option Pragma := do
  let rest ← Text.dropStart? "#line ".toList (Text.trim line)
  let (place, column) ← Text.cut? " @".toList rest
  let (line, col) ← Text.cut? [':'] (Text.trim place)
  return ⟨⟨← Text.readCount? line, ← Text.readCount? col⟩, ← Text.readCount? (Text.trim column)⟩

end Pragma

end Stencil.Unit
