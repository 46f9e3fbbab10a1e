import Stencil.Json.Value

/-!
JSON texts as they stand. A text may be well formed and still hold what no value can be made of: a number that is
too large, a string with half a surrogate pair, an array or object that nests too deep. Such a part does no harm
until it is used, so a reader of records may skip it.
-/

namespace Stencil.Json

/-- A JSON text, part by part. -/
inductive Draft
  | null
  | bool (b : Bool)
  | number (n : Number)
  | string (s : String)
  | array (items : List Draft)
  | object (members : List (String × Draft))
  /-- A part that is no value. -/
  | unusable

namespace Draft

/-- The draft of a number, if it is in range. -/
def ofNumber : Option Number → Draft
  | some n => number n
  | none => unusable

/-- The draft of a string, if it is a text. -/
def ofString : Option String → Draft
  | some s => string s
  | none => unusable

/-- The draft of an object, if the names of all its members are texts. -/
def ofMembers (members : List (Option String × Draft)) : Draft :=
  match members.mapM fun (name, d) => name.map (·, d) with
  | some members => object members
  | none => unusable

mutual

/-- The value of a draft; nothing if a part of it is no value. -/
def value? : Draft → Option Json
  | null => some .null
  | bool b => some (.bool b)
  | number n => some (.number n)
  | string s => some (.string s)
  | array items => (values? items).map .array
  | object members => (memberValues? members).map .object
  | unusable => none

/-- The values of drafts. -/
def values? : List Draft → Option (List Json)
  | [] => some []
  | d :: ds => do return (← d.value?) :: (← values? ds)

/-- The values of members. -/
def memberValues? : List (String × Draft) → Option (List (String × Json))
  | [] => some []
  | (name, d) :: rest => do return (name, ← d.value?) :: (← memberValues? rest)

end

end Draft

end Stencil.Json
