import Mathlib.Data.List.Induction
import Stencil.Proofs.Cache.Slots

/-! What happens in the course of a race.

A compilation is known by its slot. A run of moves starts compilations, in the order in which their leaders begin, and
makes those that end with a success. -/

namespace Stencil

variable {τ : Type} {α : Type}

/-- The move takes away what is stored and registered for a template. -/
def Move.Detaches (m : Move τ) (template : String) : Prop := m = .invalidate template ∨ m = .clear

namespace Race

/-- The compilation that a move starts. -/
def started? (r : Race τ) : Move τ → Option (CacheKey × Nat)
  | .compile i => match r.caller? i with
    | some ⟨key, .leading slot⟩ => some (key, slot)
    | _ => none
  | _ => none

/-- The compilation that ends with a success in a move. -/
def made? (r : Race τ) : Move τ → Option (CacheEntry τ)
  | .finish i (.ends (.ok value)) => match r.caller? i with
    | some ⟨key, .compiling slot⟩ => some ⟨key, slot, value⟩
    | _ => none
  | _ => none

/-- What is seen of moves, one after the other. -/
def along (f : Race τ → Move τ → Option α) (r : Race τ) : List (Move τ) → List α
  | [] => []
  | m :: ms => (f r m).toList ++ ((r.move? m).map fun s => along f s ms).getD []

/-- The compilations that moves start, in order. -/
def starts (r : Race τ) : List (Move τ) → List (CacheKey × Nat) := along started? r

/-- The compilations that end with a success in moves, in order. -/
def makes (r : Race τ) : List (Move τ) → List (CacheEntry τ) := along made? r

variable {r s t : Race τ} {m : Move τ} {ms ns : List (Move τ)}

/-! ### Runs, move by move -/

theorem run?_append_eq_some (hr : r.run? ms = some s) : r.run? (ms ++ ns) = some t ↔ s.run? ns = some t := by
  rw [run?_append, hr, Option.bind_some]

theorem run?_singleton : r.run? [m] = r.move? m := by
  rw [run?_cons]
  cases r.move? m <;> rfl

/-- What holds before all moves and is kept by each of them holds after a run. -/
theorem run?_induction {p : List (Move τ) → Race τ → Prop} (start : p [] r)
    (step : ∀ ms s m t, r.run? ms = some s → p ms s → s.move? m = some t → p (ms ++ [m]) t) :
    ∀ ms s, r.run? ms = some s → p ms s := by
  intro ms
  induction ms using List.reverseRecOn with
  | nil =>
    intro s hs
    cases hs
    exact start
  | append_singleton ms m ih =>
    intro t ht
    rw [run?_append] at ht
    obtain ⟨s, hs, hm⟩ := Option.bind_eq_some_iff.mp ht
    exact step ms s m t hs (ih s hs) (run?_singleton.symm.trans hm)

theorem Reachable.run (hr : r.Reachable) (hs : r.run? ms = some s) : s.Reachable := by
  obtain ⟨before, h⟩ := hr
  exact ⟨before ++ ms, (run?_append_eq_some h).mpr hs⟩

theorem along_append (f : Race τ → Move τ → Option α) (hr : r.run? ms = some s) :
    along f r (ms ++ ns) = along f r ms ++ along f s ns := by
  induction ms generalizing r with
  | nil =>
    cases hr
    rfl
  | cons m ms ih =>
    rw [run?_cons] at hr
    obtain ⟨q, hq, hs⟩ := Option.bind_eq_some_iff.mp hr
    simp [along, hq, ih hs]

theorem along_snoc (f : Race τ → Move τ → Option α) (hr : r.run? ms = some s) (m : Move τ) :
    along f r (ms ++ [m]) = along f r ms ++ (f s m).toList := by
  rw [along_append f hr]
  cases h : s.move? m <;> simp [along, h]

/-! ### What a move makes -/

theorem made?_finish {i slot : Nat} {key : CacheKey} {value : τ} (hc : r.caller? i = some ⟨key, .compiling slot⟩) :
    r.made? (.finish i (.ends (.ok value))) = some ⟨key, slot, value⟩ := by
  simp [made?, hc]

theorem made?_eq_some {e : CacheEntry τ} (h : r.made? m = some e) :
    ∃ i, m = .finish i (.ends (.ok e.value)) ∧ r.caller? i = some ⟨e.key, .compiling e.slot⟩ := by
  unfold made? at h
  split at h
  · rename_i i value
    split at h
    · rename_i key slot hc
      cases h
      exact ⟨i, rfl, hc⟩
    · cases h
  · cases h

theorem started?_eq_some {key : CacheKey} {slot : Nat} (h : r.started? m = some (key, slot)) :
    ∃ i, m = .compile i ∧ r.caller? i = some ⟨key, .leading slot⟩ := by
  unfold started? at h
  split at h
  · rename_i i
    split at h
    · rename_i key slot hc
      cases h
      exact ⟨i, rfl, hc⟩
    · cases h
  · cases h

/-- The next slot only grows. -/
theorem Step.next_le (h : Step r m s) : r.cache.next ≤ s.cache.next := by
  cases h with
  | lead => exact Nat.le_succ _
  | @finish i slot key attempt hc =>
    exact Nat.le_of_eq (Cache.next_complete ..).symm
  | _ => exact Nat.le_refl _

end Race

end Stencil
