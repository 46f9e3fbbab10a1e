import Stencil.Json.Literal
import Stencil.Markup.Document
import Stencil.Unit.Line

/-!
The statements that markup becomes. Every node gives one statement, and a block of nodes a block of
statements one level deeper. A section leaves a statement that registers it; its body stands elsewhere.
-/

namespace Stencil.Unit

open Markup (Node Branch)

/-- Lines between braces. -/
def braced (depth : Nat) (lines : List Line) : List Line :=
  .code depth "\x7b" :: lines ++ [.code depth "\x7d"]

mutual

/-- The lines of a node at a depth. -/
def nodeLines (depth : Nat) : Node → List Line
  | .text text _ => [.code depth s!"write {Json.quote text};"]
  | .expr code pos => Line.mapped depth (some pos) "emit " code ";"
  | .var name code pos => Line.mapped depth (some pos) s!"var {name} = " code ";"
  | .ifElse branches otherwise =>
    branchLines depth "if (" branches ++
      match otherwise with
      | none => []
      | some body => .code depth "else" :: braced depth (nodeListLines (depth + 1) body)
  | .forEach var source pos body =>
    Line.mapped depth (some pos) s!"foreach (var {var} in " source ")" ++ braced depth (nodeListLines (depth + 1) body)
  | .sectionDef name _ _ => [.code depth s!"define_section {Json.quote name};"]

/-- The lines of alternatives, of which the first starts with the given text. -/
def branchLines (depth : Nat) (start : String) : List Branch → List Line
  | [] => []
  | .mk cond pos body :: rest =>
    Line.mapped depth (some pos) start cond ")" ++ braced depth (nodeListLines (depth + 1) body) ++
      branchLines depth "else if (" rest

/-- The lines of nodes one after the other. -/
def nodeListLines (depth : Nat) : List Node → List Line
  | [] => []
  | node :: nodes => nodeLines depth node ++ nodeListLines depth nodes

end

end Stencil.Unit
