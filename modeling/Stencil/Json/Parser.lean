import Stencil.Json.Token

/-!
Reading JSON texts. Tokens are read one after the other with a stack of the arrays and objects that are still
open. A limit bounds how deep the arrays and objects that are used as values may nest.
-/

namespace Stencil.Json

/-- An array or object that is still open, with what it holds so far, last part first. -/
inductive Frame
  | items (done : List Draft)
  | members (done : List (Option String × Draft))
  /-- An object whose member with this name has no value yet. -/
  | member (done : List (Option String × Draft)) (name : Option String)

/-- What may come next. -/
inductive Expected
  | value
  /-- A value, or the end of an array. -/
  | firstItem
  | name
  /-- A name, or the end of an object. -/
  | firstName
  | colon
  /-- A comma, or the end of what is open. -/
  | separator
  /-- Nothing: the whole value has been read. -/
  | finished (d : Draft)

/-- What has been read of a text. -/
structure Reading where
  stack : List Frame := []
  expected : Expected := .value

namespace Reading

/-- A value has been read. -/
def put (stack : List Frame) (d : Draft) : Option Reading :=
  match stack with
  | [] => some ⟨[], .finished d⟩
  | .items done :: outer => some ⟨.items (d :: done) :: outer, .separator⟩
  | .member done name :: outer => some ⟨.members ((name, d) :: done) :: outer, .separator⟩
  | .members _ :: _ => none

/-- An array or object has been read; it is a value if fewer than `limit` others are open around it. -/
def close (limit : Nat) (outer : List Frame) (d : Draft) : Option Reading :=
  put outer (if (outer.take limit).length < limit then d else .unusable)

/-- A value starts with a token. -/
def startValue (stack : List Frame) (t : Token) : Option Reading :=
  match t with
  | .atom d => put stack d
  | .string s => put stack (.ofString s)
  | .openArray => some ⟨.items [] :: stack, .firstItem⟩
  | .openObject => some ⟨.members [] :: stack, .firstName⟩
  | _ => none

/-- What has been read after one more token. -/
def step (limit : Nat) (r : Reading) (t : Token) : Option Reading :=
  match r.expected, t, r.stack with
  | .value, t, stack => startValue stack t
  | .firstItem, .closeArray, .items _ :: outer => close limit outer (.array [])
  | .firstItem, t, stack => startValue stack t
  | .firstName, .closeObject, .members _ :: outer => close limit outer (.object [])
  | .firstName, .string name, .members done :: outer => some ⟨.member done name :: outer, .colon⟩
  | .name, .string name, .members done :: outer => some ⟨.member done name :: outer, .colon⟩
  | .colon, .colon, stack => some ⟨stack, .value⟩
  | .separator, .comma, .items done :: outer => some ⟨.items done :: outer, .value⟩
  | .separator, .comma, .members done :: outer => some ⟨.members done :: outer, .name⟩
  | .separator, .closeArray, .items done :: outer => close limit outer (.array done.reverse)
  | .separator, .closeObject, .members done :: outer => close limit outer (.ofMembers done.reverse)
  | _, _, _ => none

end Reading

/-- The draft that tokens spell. -/
def Draft.ofTokens? (limit : Nat) (ts : List Token) : Option Draft := do
  match (← ts.foldlM (Reading.step limit) {}).expected with
  | .finished d => some d
  | _ => none

/-- The draft of a text; arrays and objects are values if they nest at most `limit` deep. -/
def Draft.parse? (limit : Nat) (text : String) : Option Draft := do
  Draft.ofTokens? limit (← tokens? text.toList)

/-- The value that a text spells, with arrays and objects nested at most `limit` deep. -/
def parse? (limit : Nat) (text : String) : Option Json := do (← Draft.parse? limit text).value?

end Stencil.Json
