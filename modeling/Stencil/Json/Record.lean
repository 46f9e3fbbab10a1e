import Stencil.Json.Draft

/-!
Records and variants as JSON. A record is an object with a member for each field, in any order and with other
members besides, or an array of its fields in order; what else its members hold is of no concern. A variant is a
name, or an object with that name and the variant's content as its only member.
-/

namespace Stencil.Json

/-! ### Writing -/

/-- Null, or a written value. -/
def ofOption (write : α → Json) : Option α → Json
  | none => null
  | some a => write a

/-- A variant with content. -/
def variant (name : String) (content : Json) : Json := object [(name, content)]

/-! ### Reading -/

namespace Draft

/-- The value of the first member with a name. -/
def find? (members : List (String × Draft)) (name : String) : Option Draft :=
  (members.find? (·.1 == name)).map (·.2)

/-- The fields of a record with the given names; one may be missing from an object, but none may be given
twice. -/
def fields? (names : List String) : Draft → Option (List (Option Draft))
  | object members =>
    if names.all fun n => members.countP (·.1 == n) ≤ 1 then some (names.map (find? members)) else none
  | array items => if items.length = names.length then some (items.map some) else none
  | _ => none

/-- The name of a variant, and its content if there is one. -/
def variant? : Draft → Option (String × Option Draft)
  | string name => some (name, none)
  | object [(name, content)] => some (name, some content)
  | _ => none

/-- There is no content, or it is null. -/
def isUnit : Option Draft → Bool
  | none => true
  | some null => true
  | _ => false

/-- The text of a string. -/
def asString? : Draft → Option String
  | string s => some s
  | _ => none

/-- The value of a truth value. -/
def asBool? : Draft → Option Bool
  | bool b => some b
  | _ => none

/-- The value of an integer from zero to below the limit. -/
def asCount? (limit : Nat) : Draft → Option Nat
  | number (.int n) => if 0 ≤ n ∧ n < limit then some n.toNat else none
  | _ => none

/-- The items of an array, each read. -/
def asList? (read : Draft → Option α) : Draft → Option (List α)
  | array items => items.mapM read
  | _ => none

/-- What is read from a value; nothing from null or from a missing one. -/
def optional? (read : Draft → Option α) : Option Draft → Option (Option α)
  | none => some none
  | some null => some none
  | some d => (read d).map some

end Draft

end Stencil.Json
