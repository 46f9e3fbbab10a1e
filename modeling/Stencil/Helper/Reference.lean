import Stencil.Json.Value
import Stencil.Text.NameSet

/-!
References: namespaces of helper functions that templates call. A helper states how many arguments it takes.
Of several references with one namespace the first one counts.
-/

namespace Stencil

/-- How many arguments a helper takes. -/
inductive Arity
  | exactly (n : Nat)
  | between (min max : Nat)
  | atLeast (min : Nat)
deriving DecidableEq

namespace Arity

/-- The number of arguments is taken. -/
def accepts : Arity → Nat → Bool
  | exactly n, count => count == n
  | between min max, count => min ≤ count && count ≤ max
  | atLeast min, count => min ≤ count

/-- The wording of a number of arguments. -/
def describe : Arity → String
  | exactly n => s!"{n}"
  | between min max => s!"{min} to {max}"
  | atLeast min => s!"at least {min}"

end Arity

/-- Why a helper gives no value. -/
inductive HelperFault
  | failed (message : String)
  /-- An argument is missing that the helper's arity promises it. -/
  | missingArgument
deriving DecidableEq

/-- A helper function. -/
structure Helper where
  arity : Arity
  /-- The result is markup and written without encoding. -/
  markup : Bool := false
  run : List Json → Except HelperFault Json

/-- A namespace of helpers, in increasing order of their names. -/
structure Reference where
  space : String
  helpers : List (String × Helper) := []

namespace Reference

/-- The helper with a name. -/
def helper? (r : Reference) (name : String) : Option Helper :=
  (r.helpers.find? (·.1 == name)).map (·.2)

/-- Helpers with one more in its place; one with the same name gives way. -/
def insertHelper (name : String) (h : Helper) : List (String × Helper) → List (String × Helper)
  | [] => [(name, h)]
  | (n, g) :: rest =>
    if name < n then (name, h) :: (n, g) :: rest
    else if name = n then (name, h) :: rest
    else (n, g) :: insertHelper name h rest

/-- The reference with helpers, of which a later one replaces an earlier one of the same name. -/
def ofList (space : String) (helpers : List (String × Helper)) : Reference :=
  ⟨space, helpers.foldl (fun hs (name, h) => insertHelper name h hs) []⟩

/-- The names of the helpers. -/
def helperNames (r : Reference) : List String := r.helpers.map (·.1)

/-- The first of the references with a namespace. -/
def find? (rs : List Reference) (space : String) : Option Reference := rs.find? (·.space == space)

/-- The helper with a name in the first of the references with a namespace. -/
def findHelper? (rs : List Reference) (space name : String) : Option Helper :=
  (find? rs space).bind (·.helper? name)

/-- The references without those whose namespace is among the given ones or occurred before. -/
def distinctFrom (seen : List String) : List Reference → List Reference
  | [] => []
  | r :: rs =>
    if seen.contains r.space then distinctFrom seen rs else r :: distinctFrom (r.space :: seen) rs

/-- The first reference of each namespace, in order. -/
def distinct (rs : List Reference) : List Reference := distinctFrom [] rs

end Reference

/-- Chooses the references of a compilation from those of the template and the default ones. -/
abbrev ReferenceResolver := List Reference → List Reference → List Reference

/-- The default references, then those of the template. -/
def ReferenceResolver.default : ReferenceResolver := fun own defaults =>
  Reference.distinct (defaults ++ own)

end Stencil
