import Stencil.Json.Value

/-!
What templates do with values: look up members, test, compare, iterate and print them.
-/

namespace Stencil.Json

/-- The kind of a value. -/
def kind : Json → String
  | null => "null"
  | bool _ => "bool"
  | number _ => "number"
  | string _ => "string"
  | array _ => "array"
  | object _ => "object"

/-- The member of a value with a name. An object's own members count first; objects and arrays have a
`Count`, arrays and texts a `Length`. -/
def member? (v : Json) (name : String) : Option Json :=
  match v with
  | object members => (find? members name).or (if name = "Count" then some (ofNat members.length) else none)
  | array items => if name = "Count" ∨ name = "Length" then some (ofNat items.length) else none
  | string s => if name = "Length" then some (ofNat s.length) else none
  | _ => none

/-- The value counts as true in a condition: all but null, false, zero, and what is empty. -/
def truthy : Json → Bool
  | null => false
  | bool b => b
  | number n => n.toFloat != 0
  | string s => s != ""
  | array items => !items.isEmpty
  | object members => !members.isEmpty

/-- Two values are equal in a template; numbers are compared as doubles. -/
def looselyEqual : Json → Json → Bool
  | number a, number b => a.toFloat == b.toFloat
  | a, b => same a b

/-- The object for a member in an iteration. -/
def pair (name : String) (v : Json) : Json := object [("Key", string name), ("Value", v)]

/-- What an iteration over a value walks through. -/
def items? : Json → Option (List Json)
  | array items => some items
  | object members => some (members.map fun (name, v) => pair name v)
  | _ => none

/-- The text that is written for a value. -/
def printed? : Json → Option String
  | null => some ""
  | bool b => some (if b then "true" else "false")
  | number n => some (String.ofList n.text)
  | string s => some s
  | array _ | object _ => none

end Stencil.Json
