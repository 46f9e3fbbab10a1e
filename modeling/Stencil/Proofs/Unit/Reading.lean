import Stencil.Unit.Grammar

/-! What the readers of units take from their input.

A reader takes tokens from the front of its input and leaves the rest. It spells a relation if what it takes and what
it gives are always related; it reads the relation if, given tokens and a result that are related, it takes these
tokens and gives this result, as long as the rest does not go on with them. -/

namespace Stencil

theorem Except.bind_eq_ok {x : Except ε α} {f : α → Except ε β} {b : β} :
    (x >>= f) = .ok b ↔ ∃ a, x = .ok a ∧ f a = .ok b := by
  cases x with
  | error e =>
    refine ⟨fun h => ?_, fun ⟨a, h, _⟩ => ?_⟩
    · cases h
    · cases h
  | ok a =>
    refine ⟨fun h => ⟨a, rfl, h⟩, fun ⟨a', h, h'⟩ => ?_⟩
    cases h
    exact h'

namespace Unit

open Grammar

variable {i j k : Input} {l : Lexeme} {ls rs : List Lexeme} {s : Symbol} {t : Token} {f : SourcePos}
  {pending : Option SourcePos}

/-! ### Tokens at the front -/

namespace Input

/-- The input is these tokens in front of another input. -/
def Takes (i : Input) (ls : List Lexeme) (j : Input) : Prop := i = ⟨ls ++ j.lexemes, j.finish, j.pending⟩

theorem Takes.refl (i : Input) : i.Takes [] i := rfl

theorem Takes.trans (h : i.Takes ls j) (h' : j.Takes rs k) : i.Takes (ls ++ rs) k := by
  subst h h'
  simp only [Takes, List.append_assoc]

theorem takes_next (h : i.peek? = some t) : i.Takes [⟨t, i.pos⟩] i.next := by
  obtain ⟨lexemes, finish, pending⟩ := i
  cases lexemes with
  | nil => cases h
  | cons l ls =>
    obtain ⟨token, pos⟩ := l
    cases h
    rfl

theorem atSymbol_iff : i.atSymbol s = true ↔ i.peek? = some (.symbol s) := by
  unfold atSymbol
  split
  · rename_i t h
    simp [h]
  · rename_i h
    exact ⟨fun h' => (Bool.false_ne_true h').elim, fun h' => (h s h').elim⟩

theorem expect_eq_ok : i.expect s = .ok j ↔ i.peek? = some (.symbol s) ∧ j = i.next := by
  unfold expect
  split
  · rename_i h
    refine ⟨fun h' => ⟨atSymbol_iff.mp h, ?_⟩, fun h' => by rw [h'.2]⟩
    cases h'
    rfl
  · rename_i h
    refine ⟨fun h' => ?_, fun h' => (h (atSymbol_iff.mpr h'.1)).elim⟩
    cases h'

theorem takes_expect (h : i.expect s = .ok j) : i.Takes [⟨.symbol s, i.pos⟩] j := by
  obtain ⟨hs, rfl⟩ := expect_eq_ok.mp h
  exact takes_next hs

theorem atSymbol_cons (h : IsSymbol s l) (s' : Symbol) : (⟨l :: ls, f, pending⟩ : Input).atSymbol s' = (s == s') := by
  obtain ⟨token, pos⟩ := l
  cases h
  rfl

theorem expect_cons (h : IsSymbol s l) : (⟨l :: ls, f, pending⟩ : Input).expect s = .ok ⟨ls, f, pending⟩ := by
  rw [expect, atSymbol_cons h, beq_self_eq_true]
  rfl

end Input

/-! ### Readers -/

/-- What the reader takes and what it gives are related. -/
def Spells (r : Reader α) (P : List Lexeme → α → Prop) : Prop :=
  ∀ i a j, r i = .ok (a, j) → ∃ ls, i.Takes ls j ∧ P ls a

/-- The reader takes these tokens for this result, unless a rest follows them that goes on with them. -/
def Reads (r : Reader α) (ls : List Lexeme) (a : α) (Stops : List Lexeme → Prop) : Prop :=
  ∀ rest f pending, Stops rest → r ⟨ls ++ rest, f, pending⟩ = .ok (a, ⟨rest, f, pending⟩)

theorem name_eq_ok {n : Named} (h : name i = .ok (n, j)) : i.peek? = some (.name n.name) ∧ n.pos = i.pos ∧ j = i.next := by
  unfold name at h
  split at h
  · rename_i n' hn
    cases h
    exact ⟨hn, rfl, rfl⟩
  · cases h

theorem spells_name : Spells name fun ls n => ∃ l, ls = [l] ∧ IsName n l := by
  intro i n j h
  obtain ⟨hn, hp, rfl⟩ := name_eq_ok h
  refine ⟨_, Input.takes_next hn, _, rfl, ?_⟩
  rw [IsName, hp]

theorem name_cons {n : Named} (h : IsName n l) : name ⟨l :: ls, f, pending⟩ = .ok (n, ⟨ls, f, pending⟩) := by
  subst h
  rfl

end Unit

end Stencil
