import Stencil.Toml.Value

/-!
TOML tables under construction. A table is defined by its own header, on the way to another header, or on the
way to a dotted key. A header may define a table once, and later headers may go through any table; a dotted key
goes only through tables that no header has defined, and adds only to tables that dotted keys have made.
-/

namespace Stencil.Toml

/-- How a table came about. -/
inductive Origin
  /-- By its own header, or as an inline table. -/
  | header
  /-- On the way to another header. -/
  | passed
  /-- On the way to a dotted key. -/
  | dotted
deriving DecidableEq

/-- What stands under a key. -/
inductive Slot
  | value (v : Toml)
  | table (origin : Origin) (members : List (String × Slot))
  /-- Tables with one header each, last one first. -/
  | tables (last : List (String × Slot)) (earlier : List (List (String × Slot)))

/-- The keys of a table with what stands under them. -/
abbrev Slots := List (String × Slot)

/-- What stands under a key. -/
def Slots.find? (slots : Slots) (key : String) : Option Slot := (List.find? (·.1 == key) slots).map (·.2)

/-- The table with something put under a key. -/
def Slots.put (slots : Slots) (key : String) (s : Slot) : Slots :=
  if (slots.find? key).isSome then slots.map fun (k, old) => if k = key then (k, s) else (k, old)
  else slots ++ [(key, s)]

/-- Changes the table at the end of a path, given how it came about, and makes the tables on the way. -/
def Slots.alter (dotted : Bool) (change : Origin → Slots → Option Slots) :
    List String → Origin → Slots → Option Slots
  | [], origin, slots => change origin slots
  | key :: path, _, slots =>
    match slots.find? key with
    | none => do
      let origin := if dotted then .dotted else .passed
      return slots.put key (.table origin (← Slots.alter dotted change path origin []))
    | some (.value _) => none
    | some (.tables last earlier) => do
      return slots.put key (.tables (← Slots.alter dotted change path .header last) earlier)
    | some (.table origin inner) =>
      if dotted ∧ origin = .header then none
      else do return slots.put key (.table origin (← Slots.alter dotted change path origin inner))

/-- Puts a value under a key that is not in use. -/
def Slots.insertNew (key : String) (v : Toml) (slots : Slots) : Option Slots :=
  if (slots.find? key).isSome then none else some (slots.put key (.value v))

/-- The table with a value under a dotted key. -/
def Slots.define (slots : Slots) (path : List String) (key : String) (v : Toml) : Option Slots :=
  match path with
  | [] => slots.insertNew key v
  | path => Slots.alter true
      (fun origin inner => if origin = .dotted then inner.insertNew key v else none) path .header slots

/-- The table with a table under a header. -/
def Slots.openTable (slots : Slots) (path : List String) (key : String) : Option Slots :=
  Slots.alter false (fun _ inner =>
    match inner.find? key with
    | none => some (inner.put key (.table .header []))
    | some (.table .passed members) => some (inner.put key (.table .header members))
    | some _ => none) path .header slots

/-- The table with one more table under a header for several ones. -/
def Slots.openItem (slots : Slots) (path : List String) (key : String) : Option Slots :=
  Slots.alter false (fun _ inner =>
    match inner.find? key with
    | none => some (inner.put key (.tables [] []))
    | some (.tables last earlier) => some (inner.put key (.tables [] (last :: earlier)))
    | some _ => none) path .header slots

/-- The table with a value under a dotted key of the table at a path. -/
def Slots.defineAt (slots : Slots) (place : List String) (path : List String) (key : String) (v : Toml) :
    Option Slots :=
  Slots.alter false (fun _ inner => inner.define path key v) place .header slots

mutual

/-- The value of what stands under a key. -/
def Slot.toToml : Slot → Toml
  | .value v => v
  | .table _ members => .table (slotsToToml members)
  | .tables last earlier => .array ((.table (slotsToToml last) :: itemsToToml earlier).reverse)

/-- The members of a table. -/
def slotsToToml : List (String × Slot) → List (String × Toml)
  | [] => []
  | (key, s) :: rest => (key, s.toToml) :: slotsToToml rest

/-- The tables of a list. -/
def itemsToToml : List (List (String × Slot)) → List Toml
  | [] => []
  | members :: rest => .table (slotsToToml members) :: itemsToToml rest

end

end Stencil.Toml
