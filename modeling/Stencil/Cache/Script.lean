import Stencil.Cache.Basic

/-!
Scripts: sequences of calls on a cache. The compilation of a call may make further calls before it ends, and
others may wait for it.
-/

namespace Stencil

/-- How the compilation of a call ends. -/
inductive Attempt (τ : Type)
  | ends (outcome : Except TemplateError τ)
  | breaksOff

/-- What the compilation for a key leaves in its slot. -/
def Attempt.outcome (key : CacheKey) : Attempt τ → Except TemplateError τ
  | ends outcome => outcome
  | breaksOff => Cache.aborted key

/-- What a caller gets. -/
inductive Receipt (τ : Type)
  /-- A compilation, with its slot. -/
  | compiled (slot : Nat) (value : τ)
  | failed (e : TemplateError)
  /-- The caller's own compilation broke off. -/
  | brokeOff
  /-- The caller waits for a compilation that does not go on. -/
  | stuck

/-- What a caller gets from the outcome in a slot. -/
def Receipt.ofOutcome (slot : Nat) : Except TemplateError τ → Receipt τ
  | .ok value => compiled slot value
  | .error e => failed e

/-- What a caller gets that led a compilation. -/
def Receipt.ofAttempt (slot : Nat) : Attempt τ → Receipt τ
  | .ends outcome => ofOutcome slot outcome
  | .breaksOff => brokeOff

/-- A call on a cache. -/
inductive CacheCall (τ : Type)
  /-- Gets a compilation; calls are made during it if it has to be made. -/
  | get (key : CacheKey) (attempt : Attempt τ) (inner : List (CacheCall τ))
  /-- Gets a compilation that a number of other callers wait for. -/
  | getTogether (key : CacheKey) (waiters : Nat) (attempt : Attempt τ) (inner : List (CacheCall τ))
  | contains (key : CacheKey)
  | entry (key : CacheKey)
  | size
  | invalidate (template : String)
  | clear

/-- What a call on a cache gives. -/
inductive CacheReply (τ : Type)
  /-- What the caller got, what the inner calls gave if they were made, and whether the key is stored. -/
  | got (receipt : Receipt τ) (inner : Option (List (CacheReply τ))) (stored : Bool)
  /-- The same with what the waiting callers got. -/
  | gotTogether (leader : Receipt τ) (waiters : List (Receipt τ)) (inner : List (CacheReply τ)) (stored : Bool)
  | flag (b : Bool)
  | entry (e : Option (CacheEntry τ))
  | count (n : Nat)
  | size (n : Nat)

variable {τ : Type}

mutual

/-- Makes a call. -/
def CacheCall.run (c : Cache τ) : CacheCall τ → CacheReply τ × Cache τ
  | .get key attempt inner =>
    match c.lookup key with
    | (.hit e, c) => (.got (.compiled e.slot e.value) none (c.contains key), c)
    | (.wait _, c) => (.got .stuck none (c.contains key), c)
    | (.lead slot, c) =>
      let (replies, c) := CacheCall.runAll c inner
      let c := c.complete key slot (attempt.outcome key)
      (.got (.ofAttempt slot attempt) (some replies) (c.contains key), c)
  | .getTogether key waiters attempt inner =>
    match c.lookup key with
    | (.hit e, c) =>
      let receipt := Receipt.compiled e.slot e.value
      (.gotTogether receipt (List.replicate waiters receipt) [] (c.contains key), c)
    | (.wait _, c) => (.gotTogether .stuck (List.replicate waiters .stuck) [] (c.contains key), c)
    | (.lead slot, c) =>
      let (replies, c) := CacheCall.runAll c inner
      let outcome := attempt.outcome key
      let c := c.complete key slot outcome
      (.gotTogether (.ofAttempt slot attempt) (List.replicate waiters (.ofOutcome slot outcome)) replies
        (c.contains key), c)
  | .contains key => (.flag (c.contains key), c)
  | .entry key => (.entry (c.entry? key), c)
  | .size => (.size c.size, c)
  | .invalidate template => (.count (c.count template), c.invalidate template)
  | .clear => (.count 0, c.clear)

/-- Makes calls in turn. -/
def CacheCall.runAll (c : Cache τ) : List (CacheCall τ) → List (CacheReply τ) × Cache τ
  | [] => ([], c)
  | call :: calls =>
    let (reply, c) := call.run c
    let (replies, c) := CacheCall.runAll c calls
    (reply :: replies, c)

end

end Stencil
