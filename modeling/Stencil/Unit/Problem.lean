import Stencil.Diagnostic
import Stencil.Unit.Fault

/-!
What can be wrong with a unit that can be read: names that stand for nothing, calls with a wrong number of
arguments, and declarations that clash. Problems that only suggest a mistake are warnings.
-/

namespace Stencil.Unit

/-- Something wrong with a unit. -/
inductive Problem
  /-- The unit cannot be read. -/
  | malformed (fault : Fault)
  | layoutTwice
  | sectionTwice (name : String)
  | executeTwice
  | noExecute
  | sectionUndeclared (name : String)
  /-- Sections register each other in a circle. -/
  | circularSections
  | unknownName (name : String)
  | unknownMember (model member : String)
  | unknownFunction (name : String)
  | variableCalled (name : String)
  /-- A member of something other than a name is called. -/
  | memberCalled
  | notCallable
  | notInNamespace (space name : String)
  /-- A path whose front is no namespace is called. -/
  | unknownPath (path space : String)
  | arity (name expected : String) (count : Nat)
  | ambiguous (name : String) (spaces : List String)
  | unknownBaseType (name : String)
  | functionTwice (name : String)
  | unknownNamespace (name : String)
  | modelMismatch (declared requested : String)
  | unusedFunction (name : String)

namespace Problem

/-- A path goes through the model. -/
def throughModel (space : String) : Bool :=
  space == "Model" || "Model.".toList.isPrefixOf space.toList

/-- The code of a problem. -/
def code : Problem → String
  | malformed _ | layoutTwice | sectionTwice _ | executeTwice | noExecute | sectionUndeclared _
  | circularSections => "RK1001"
  | unknownName _ => "RK1002"
  | unknownMember .. => "RK1003"
  | unknownFunction _ | variableCalled _ | memberCalled | notCallable | notInNamespace .. => "RK1004"
  | unknownPath _ space => if throughModel space then "RK1004" else "RK1002"
  | arity .. => "RK1005"
  | ambiguous .. => "RK1006"
  | unknownBaseType _ => "RK1007"
  | functionTwice _ => "RK1008"
  | unknownNamespace _ => "RK2001"
  | modelMismatch .. => "RK2002"
  | unusedFunction _ => "RK2003"

/-- How grave a problem is. -/
def severity : Problem → Severity
  | unknownNamespace _ | modelMismatch .. | unusedFunction _ => .warning
  | _ => .error

/-- The wording of a problem. -/
def message : Problem → String
  | malformed fault => fault.message
  | layoutTwice => "The layout is declared more than once"
  | sectionTwice name => s!"The section '{name}' is declared more than once"
  | executeTwice => "The execute block is declared more than once"
  | noExecute => "The class has no execute block"
  | sectionUndeclared name => s!"The section '{name}' is not declared"
  | circularSections => "The sections register each other in a circle"
  | unknownName name => s!"The name '{name}' does not exist in the current context"
  | unknownMember model member => s!"'{model}' does not contain a definition for '{member}'"
  | unknownFunction name => s!"The function '{name}' does not exist in the current context"
  | variableCalled name => s!"'{name}' is a variable and cannot be called"
  | memberCalled => "Only template functions and helpers can be called"
  | notCallable => "This expression cannot be called"
  | notInNamespace space name => s!"The namespace '{space}' has no function '{name}'"
  | unknownPath path _ => s!"'{path}' is not a function or a known namespace"
  | arity name expected count => s!"'{name}' takes {expected} arguments but {count} were supplied"
  | ambiguous name spaces =>
    let spaces := ", ".intercalate spaces
    s!"The call '{name}' is ambiguous between namespaces {spaces}"
  | unknownBaseType name => s!"The base type '{name}' could not be found"
  | functionTwice name => s!"The function '{name}' is already defined"
  | unknownNamespace name => s!"The namespace '{name}' is not provided by any reference"
  | modelMismatch declared requested =>
    s!"The template declares model '{declared}' but is compiled for '{requested}'"
  | unusedFunction name => s!"The function '{name}' is never called"

/-- The diagnostic of a problem at a place. -/
def diagnostic (p : Problem) (pos : SourcePos) : Diagnostic :=
  ⟨p.severity, p.code, p.message, some pos⟩

/-- The problem is an error. -/
def isError (p : Problem) : Bool := p.severity == .error

end Problem

end Stencil.Unit
