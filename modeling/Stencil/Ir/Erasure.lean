import Stencil.Ir.Module

/-!
Modules without the places that their statements and functions keep. Two modules that are equal up to places
do the same; they differ only in where their failures are reported.
-/

namespace Stencil.Ir

mutual

/-- A statement without places. -/
def Stmt.erasePlaces : Stmt → Stmt
  | .write text => .write text
  | .emit expr _ => .emit expr none
  | .bind name expr _ => .bind name expr none
  | .ifElse branches none _ => .ifElse (Branch.erasePlacesAll branches) none none
  | .ifElse branches (some body) _ => .ifElse (Branch.erasePlacesAll branches) (some (Stmt.erasePlacesAll body)) none
  | .forEach var source body _ => .forEach var source (Stmt.erasePlacesAll body) none
  | .defineSection index => .defineSection index

/-- Statements without places. -/
def Stmt.erasePlacesAll : List Stmt → List Stmt
  | [] => []
  | s :: ss => s.erasePlaces :: Stmt.erasePlacesAll ss

/-- A condition and its statements without places. -/
def Branch.erasePlaces : Branch → Branch
  | .mk cond body => .mk cond (Stmt.erasePlacesAll body)

/-- Conditions and their statements without places. -/
def Branch.erasePlacesAll : List Branch → List Branch
  | [] => []
  | b :: bs => b.erasePlaces :: Branch.erasePlacesAll bs

end

/-- A function without its place. -/
def Function.erasePlaces (f : Function) : Function := { f with pos := none }

/-- A section without places. -/
def Section.erasePlaces (s : Section) : Section := { s with body := Stmt.erasePlacesAll s.body }

/-- A module without places. -/
def Module.erasePlaces (m : Module) : Module :=
  { m with
    functions := m.functions.map Function.erasePlaces
    sections := m.sections.map Section.erasePlaces
    body := Stmt.erasePlacesAll m.body }

/-! ### Erasing keeps what is not a place -/

mutual

/-- A statement without places has no places to erase. -/
theorem Stmt.erasePlaces_erasePlaces : (s : Stmt) → s.erasePlaces.erasePlaces = s.erasePlaces
  | .write _ | .emit _ _ | .bind _ _ _ | .defineSection _ => rfl
  | .ifElse branches none _ => by
    rw [Stmt.erasePlaces, Stmt.erasePlaces, Branch.erasePlacesAll_erasePlacesAll branches]
  | .ifElse branches (some body) _ => by
    rw [Stmt.erasePlaces, Stmt.erasePlaces, Branch.erasePlacesAll_erasePlacesAll branches,
      Stmt.erasePlacesAll_erasePlacesAll body]
  | .forEach _ _ body _ => by
    rw [Stmt.erasePlaces, Stmt.erasePlaces, Stmt.erasePlacesAll_erasePlacesAll body]

theorem Stmt.erasePlacesAll_erasePlacesAll :
    (ss : List Stmt) → Stmt.erasePlacesAll (Stmt.erasePlacesAll ss) = Stmt.erasePlacesAll ss
  | [] => rfl
  | s :: ss => by
    rw [Stmt.erasePlacesAll, Stmt.erasePlacesAll, Stmt.erasePlaces_erasePlaces s,
      Stmt.erasePlacesAll_erasePlacesAll ss]

theorem Branch.erasePlaces_erasePlaces : (b : Branch) → b.erasePlaces.erasePlaces = b.erasePlaces
  | .mk _ body => by
    rw [Branch.erasePlaces, Branch.erasePlaces, Stmt.erasePlacesAll_erasePlacesAll body]

theorem Branch.erasePlacesAll_erasePlacesAll :
    (bs : List Branch) → Branch.erasePlacesAll (Branch.erasePlacesAll bs) = Branch.erasePlacesAll bs
  | [] => rfl
  | b :: bs => by
    rw [Branch.erasePlacesAll, Branch.erasePlacesAll, Branch.erasePlaces_erasePlaces b,
      Branch.erasePlacesAll_erasePlacesAll bs]

end

end Stencil.Ir
