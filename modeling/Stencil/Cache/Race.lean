import Stencil.Cache.Script

/-!
Callers of a cache that run at the same time. The look-up of a key, the end of a compilation, the publication
of its outcome, invalidation and clearing are single moves; the moves of different callers follow one another
in any order. What one caller does without interruption is what a call of a script does.
-/

namespace Stencil

/-- What a caller is doing. -/
inductive Phase (τ : Type)
  /-- It is to compile for its slot. -/
  | leading (slot : Nat)
  | compiling (slot : Nat)
  /-- Its compilation has ended and is not yet published. -/
  | publishing (slot : Nat) (attempt : Attempt τ)
  | waiting (slot : Nat)
  | returned (receipt : Receipt τ)

/-- A caller that gets the compilation for a key. -/
structure Caller (τ : Type) where
  key : CacheKey
  phase : Phase τ

/-- What happens next. The caller of a move is given by when it came. -/
inductive Move (τ : Type)
  /-- A caller comes and looks up the key. -/
  | arrive (key : CacheKey)
  | compile (caller : Nat)
  | finish (caller : Nat) (attempt : Attempt τ)
  | publish (caller : Nat)
  /-- The caller gets the outcome that it waits for. -/
  | wake (caller : Nat)
  | invalidate (template : String)
  | clear

/-- A cache, the published outcomes with their slots, and the callers in the order in which they came. -/
structure Race (τ : Type) where
  cache : Cache τ := {}
  outcomes : List (Nat × Except TemplateError τ) := []
  callers : List (Caller τ) := []

/-- What a caller does after its look-up. -/
def Phase.ofFound {τ : Type} : Found τ → Phase τ
  | .hit e => returned (.compiled e.slot e.value)
  | .wait slot => waiting slot
  | .lead slot => leading slot

namespace Race

variable {τ : Type}

/-- What the caller that came as the `i`-th is doing, with its key. -/
def caller? (r : Race τ) (i : Nat) : Option (Caller τ) := r.callers[i]?

/-- The published outcome of a slot. -/
def outcome? (r : Race τ) (slot : Nat) : Option (Except TemplateError τ) :=
  (r.outcomes.find? (·.1 == slot)).map (·.2)

/-- The race in which a caller goes on to another phase. -/
def goOn (r : Race τ) (i : Nat) (phase : Phase τ) : Race τ :=
  { r with callers := r.callers.modify i fun c => { c with phase } }

/-- The race after a move, if the move is possible. -/
def move? (r : Race τ) : Move τ → Option (Race τ)
  | .arrive key =>
    let (found, cache) := r.cache.lookup key
    some { r with cache, callers := r.callers ++ [⟨key, .ofFound found⟩] }
  | .compile i => match r.caller? i with
    | some ⟨_, .leading slot⟩ => some (r.goOn i (.compiling slot))
    | _ => none
  | .finish i attempt => match r.caller? i with
    | some ⟨key, .compiling slot⟩ =>
      some ({ r with cache := r.cache.complete key slot (attempt.outcome key) }.goOn i (.publishing slot attempt))
    | _ => none
  | .publish i => match r.caller? i with
    | some ⟨key, .publishing slot attempt⟩ =>
      some ({ r with outcomes := (slot, attempt.outcome key) :: r.outcomes }.goOn i
        (.returned (.ofAttempt slot attempt)))
    | _ => none
  | .wake i => match r.caller? i with
    | some ⟨_, .waiting slot⟩ => (r.outcome? slot).map fun o => r.goOn i (.returned (.ofOutcome slot o))
    | _ => none
  | .invalidate template => some { r with cache := r.cache.invalidate template }
  | .clear => some { r with cache := r.cache.clear }

/-- The race after moves, if they are possible one after the other. -/
def run? (r : Race τ) (moves : List (Move τ)) : Option (Race τ) := moves.foldlM move? r

/-- What can come of an empty cache. -/
def Reachable (r : Race τ) : Prop := ∃ moves, run? {} moves = some r

/-! ### Runs -/

@[simp] theorem run?_nil (r : Race τ) : r.run? [] = some r := rfl

theorem run?_cons (r : Race τ) (m : Move τ) (ms : List (Move τ)) :
    r.run? (m :: ms) = (r.move? m).bind fun s => s.run? ms := List.foldlM_cons

theorem run?_append (r : Race τ) (ms ns : List (Move τ)) :
    r.run? (ms ++ ns) = (r.run? ms).bind fun s => s.run? ns := List.foldlM_append

/-- What holds of the empty race and is kept by every move holds of what can come. -/
theorem Reachable.induction {p : Race τ → Prop} (empty : p {})
    (step : ∀ r m s, p r → r.move? m = some s → p s) {r : Race τ} (hr : r.Reachable) : p r := by
  have kept : ∀ ms (q : Race τ), p q → q.run? ms = some r → p r := by
    intro ms
    induction ms with
    | nil => intro q hq h; cases h; exact hq
    | cons m ms ih =>
      intro q hq h
      rw [run?_cons] at h
      obtain ⟨s, hm, hs⟩ := Option.bind_eq_some_iff.mp h
      exact ih s (step q m s hq hm) hs
  obtain ⟨ms, h⟩ := hr
  exact kept ms {} empty h

/-! ### One caller alone -/

theorem caller?_goOn (r : Race τ) (i : Nat) (phase : Phase τ) :
    (r.goOn i phase).caller? i = (r.caller? i).map fun c => { c with phase } := by
  simp [caller?, goOn]

/-- A caller that leads and is not interrupted does what the call of a script does. -/
theorem run?_get (r : Race τ) (key : CacheKey) (attempt : Attempt τ) {slot : Nat}
    (hl : (r.cache.lookup key).1 = .lead slot) :
    ∃ s, r.run? [.arrive key, .compile r.callers.length, .finish r.callers.length attempt,
        .publish r.callers.length] = some s ∧
      s.cache = ((CacheCall.get key attempt []).run r.cache).2 ∧
      s.caller? r.callers.length = some ⟨key, .returned (.ofAttempt slot attempt)⟩ := by
  rcases hc : r.cache.lookup key with ⟨found, cache⟩
  obtain rfl : found = .lead slot := by rw [← hl, hc]
  simp [run?_cons, move?, hc, Phase.ofFound, caller?, goOn, CacheCall.run, CacheCall.runAll]

end Race

end Stencil
