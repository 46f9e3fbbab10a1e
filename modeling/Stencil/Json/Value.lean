import Stencil.Decimal.Layout

/-!
JSON values. An object holds its members in order; a value is canonical if the names of every object in it
increase, and the canonical form of a value keeps of equally named members the last one.
-/

namespace Stencil

/-- A number: an integer, or a double for every other one. -/
inductive Number
  | int (n : Int)
  | float (x : Float)

/-- A JSON value. -/
inductive Json
  | null
  | bool (b : Bool)
  | number (n : Number)
  | string (s : String)
  | array (items : List Json)
  | object (members : List (String × Json))

instance : Inhabited Json := ⟨.null⟩

namespace Number

/-- The number as a double. -/
def toFloat : Number → Float
  | int n => Float.ofInt n
  | float x => x

/-- Integers equal integers, and doubles doubles. -/
def same : Number → Number → Bool
  | int m, int n => m == n
  | float x, float y => x == y
  | _, _ => false

/-- How doubles are written. -/
def layout : Decimal.Layout := ⟨-5, 16⟩

/-- The text of a number. -/
def text : Number → List Char
  | int n => if n < 0 then '-' :: Text.digitsOf n.natAbs else Text.digitsOf n.natAbs
  | float x => layout.writeFloat x

end Number

namespace Json

/-- The integer as a value. -/
def ofInt (n : Int) : Json := number (.int n)

/-- The natural number as a value. -/
def ofNat (n : Nat) : Json := number (.int n)

/-! ### Members -/

/-- The members with one more in its place by name; one with the same name gives way. -/
def insertMember (name : String) (value : Json) : List (String × Json) → List (String × Json)
  | [] => [(name, value)]
  | (n, v) :: rest =>
    if name < n then (name, value) :: (n, v) :: rest
    else if name = n then (name, value) :: rest
    else (n, v) :: insertMember name value rest

/-- The value of the first member with a name. -/
def find? (members : List (String × Json)) (name : String) : Option Json :=
  (members.find? (·.1 == name)).map (·.2)

mutual

/-- The value with the members of every object in order. -/
def canonical : Json → Json
  | array items => array (canonicalItems items)
  | object members => object (canonicalMembers [] members)
  | v => v

/-- The canonical forms of items. -/
def canonicalItems : List Json → List Json
  | [] => []
  | v :: vs => v.canonical :: canonicalItems vs

/-- The members so far with the canonical forms of more of them. -/
def canonicalMembers (done : List (String × Json)) : List (String × Json) → List (String × Json)
  | [] => done
  | (name, v) :: rest => canonicalMembers (insertMember name v.canonical done) rest

end

/-! ### Equality -/

mutual

/-- Two values are the same, member by member and item by item. -/
def same : Json → Json → Bool
  | null, null => true
  | bool a, bool b => a == b
  | number a, number b => a.same b
  | string a, string b => a == b
  | array a, array b => sameItems a b
  | object a, object b => sameMembers a b
  | _, _ => false

/-- Two lists hold the same values. -/
def sameItems : List Json → List Json → Bool
  | [], [] => true
  | a :: as, b :: bs => same a b && sameItems as bs
  | _, _ => false

/-- Two lists hold the same members. -/
def sameMembers : List (String × Json) → List (String × Json) → Bool
  | [], [] => true
  | (m, a) :: as, (n, b) :: bs => m == n && same a b && sameMembers as bs
  | _, _ => false

end

end Json

end Stencil
