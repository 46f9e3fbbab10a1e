import Stencil.Diagnostic
import Stencil.Text.Name
import Stencil.Unit.Pragma

/-!
Source maps: from places in a unit to places in its template. A pragma maps the line after it; a line without
a pragma takes the place of the nearest mapped line before it.
-/

namespace Stencil

/-- A mapped line of a unit. -/
structure Mapping where
  line : Nat
  pragma : Unit.Pragma
deriving DecidableEq

/-- The mapped lines of a unit, in order. -/
structure SourceMap where
  entries : List Mapping := []
deriving DecidableEq

namespace SourceMap

/-- The mapped lines that the lines of a text give, of which the first one has the given number. -/
def entriesFrom (number : Nat) : List (List Char) → List Mapping
  | [] => []
  | line :: lines =>
    match Unit.Pragma.ofLine? line with
    | some p => ⟨number + 1, p⟩ :: entriesFrom (number + 1) lines
    | none => entriesFrom (number + 1) lines

/-- The source map of a unit's text. -/
def ofSource (source : String) : SourceMap :=
  ⟨entriesFrom 1 (Text.fields '\n' source.toList)⟩

/-- The place in the template of a place in the unit. On a mapped line the distance to the code's column is
carried over. -/
def map? (m : SourceMap) (p : SourcePos) : Option SourcePos :=
  match m.entries.find? (·.line == p.line) with
  | some e => some ⟨e.pragma.template.line, e.pragma.template.column + (p.column - e.pragma.column)⟩
  | none => (m.entries.reverse.find? (·.line < p.line)).map (·.pragma.template)

/-- The location of a diagnostic of a template's unit. -/
def locate (m : Option SourceMap) (template : String) (pos : Option SourcePos) : Location :=
  match pos with
  | none => .unknown
  | some pos => match m.bind (·.map? pos) with
    | some p => .template template p
    | none => .generated pos

end SourceMap

end Stencil
