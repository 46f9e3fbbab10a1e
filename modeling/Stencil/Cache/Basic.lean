import Stencil.ModelType
import Stencil.TemplateError

/-!
The cache of compilations. A key is a template's key with a model type's name. Who looks up a key that is not
stored leads its compilation and holds a slot; who comes while the slot is registered waits for it. A slot that
is no longer registered when its compilation ends stores nothing, so that a compilation which was under way
when its template was invalidated is never stored.
-/

namespace Stencil

/-- What compilations are stored under. -/
structure CacheKey where
  template : String
  /-- The name of the model type. -/
  modelType : String
deriving DecidableEq

namespace CacheKey

/-- The key of a template for a model type. -/
def of (template : String) (modelType : ModelType) : CacheKey := ⟨template, modelType.name⟩

/-- The wording of a key. -/
def describe (k : CacheKey) : String := s!"{k.template} ({k.modelType})"

end CacheKey

/-- A stored compilation with the slot that it was made for. -/
structure CacheEntry (τ : Type) where
  key : CacheKey
  slot : Nat
  value : τ

/-- Stored compilations and those under way. -/
structure Cache (τ : Type) where
  entries : List (CacheEntry τ) := []
  /-- The registered slots. -/
  inFlight : List (CacheKey × Nat) := []
  /-- The next slot. -/
  next : Nat := 0

/-- What a look-up in a cache gives. -/
inductive Found (τ : Type)
  | hit (e : CacheEntry τ)
  /-- Another caller compiles for this slot. -/
  | wait (slot : Nat)
  /-- The caller is to compile for this slot. -/
  | lead (slot : Nat)

namespace Cache

variable {τ : Type}

/-- The entry of a key. -/
def entry? (c : Cache τ) (key : CacheKey) : Option (CacheEntry τ) := c.entries.find? (·.key == key)

/-- A compilation is stored under the key. -/
def contains (c : Cache τ) (key : CacheKey) : Bool := (c.entry? key).isSome

/-- The slot that is registered for a key. -/
def slot? (c : Cache τ) (key : CacheKey) : Option Nat := (c.inFlight.find? (·.1 == key)).map (·.2)

/-- The number of stored compilations. -/
def size (c : Cache τ) : Nat := c.entries.length

/-- Looks up a key; if nothing is stored or under way, a new slot is registered. -/
def lookup (c : Cache τ) (key : CacheKey) : Found τ × Cache τ :=
  match c.entry? key with
  | some e => (.hit e, c)
  | none => match c.slot? key with
    | some slot => (.wait slot, c)
    | none => (.lead c.next, { c with inFlight := (key, c.next) :: c.inFlight, next := c.next + 1 })

/-- Ends the compilation for a slot: if the slot is still registered, it is taken out and a success is
stored. -/
def complete (c : Cache τ) (key : CacheKey) (slot : Nat) (outcome : Except TemplateError τ) : Cache τ :=
  if c.slot? key = some slot then
    let inFlight := c.inFlight.filter (·.1 != key)
    match outcome with
    | .ok value => { c with inFlight, entries := ⟨key, slot, value⟩ :: c.entries.filter (·.key != key) }
    | .error _ => { c with inFlight }
  else c

/-- Removes what is stored for a template and unregisters its slots. -/
def invalidate (c : Cache τ) (template : String) : Cache τ :=
  { c with
    entries := c.entries.filter (·.key.template != template)
    inFlight := c.inFlight.filter (·.1.template != template) }

/-- How many entries there are for a template. -/
def count (c : Cache τ) (template : String) : Nat := c.entries.countP (·.key.template == template)

/-- Removes everything that is stored and unregisters every slot. -/
def clear (c : Cache τ) : Cache τ := { c with entries := [], inFlight := [] }

/-- What a compilation gives if it breaks off. -/
def aborted (key : CacheKey) : Except TemplateError τ := .error (.ofCause key.template .compilationAborted)

end Cache

end Stencil
