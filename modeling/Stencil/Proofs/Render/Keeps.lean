import Stencil.Render.Interpreter

/-! What executions keep and how they fail.

A change of the scene lasts even if the computation fails, so an invariant has to be kept either way. A rule for each
way to put computations together says what the whole keeps and how it can fail. -/

namespace Stencil

variable {σ α β ε ε' : Type} {I : Scene σ → Prop} {E : ε → Prop} {E' : ε' → Prop} {P : α → Prop} {Q : β → Prop}

/-- A computation keeps an invariant of the scene, gives only certain values, and fails only in certain ways. -/
structure Keeps (I : Scene σ → Prop) (E : ε → Prop) (P : α → Prop) (x : ExceptT ε (StateM (Scene σ)) α) : Prop where
  kept : ∀ s, I s → I (x s).2
  gives : ∀ s, I s → ∀ a, (x s).1 = .ok a → P a
  fails : ∀ s, I s → ∀ e, (x s).1 = .error e → E e

theorem bind_run {S : Type} (x : ExceptT ε (StateM S) α) (f : α → ExceptT ε (StateM S) β) (s : S) :
    (x >>= f) s = match (x s).1 with
      | .ok a => f a (x s).2
      | .error e => (.error e, (x s).2) := by
  have hrun : (x >>= f) s = ExceptT.bindCont f (x s).1 (x s).2 := rfl
  rw [hrun]
  cases (x s).1 <;> rfl

/-- Executing a template is running its body with what renders its sections. -/
theorem CompiledTemplate.execute_run (t : CompiledTemplate) (model : Json) (host : Host σ) (scene : Scene σ) :
    t.execute model host scene =
      (⟨t, model, host, renderSectionTo host scene.context.depth⟩ : Machine σ).output [] t.module.body scene := by
  rw [execute, bind_run]
  rfl

/-- Computations in turn that give a value have all given one. -/
theorem bind_ok {S : Type} {x : ExceptT ε (StateM S) α} {f : α → ExceptT ε (StateM S) β} {s : S} {b : β}
    (h : ((x >>= f) s).1 = .ok b) : ∃ a, (x s).1 = .ok a ∧ (f a (x s).2).1 = .ok b := by
  rw [bind_run] at h
  cases ha : (x s).1 with
  | error e =>
    rw [ha] at h
    cases h
  | ok a =>
    rw [ha] at h
    exact ⟨a, rfl, h⟩

/-- The same, with the scenes in between. -/
theorem bind_eq_ok {S : Type} {x : ExceptT ε (StateM S) α} {f : α → ExceptT ε (StateM S) β} {s s' : S} {b : β}
    (h : (x >>= f) s = (.ok b, s')) : ∃ a s₁, x s = (.ok a, s₁) ∧ f a s₁ = (.ok b, s') := by
  rw [bind_run] at h
  rcases hx : x s with ⟨_ | a, s₁⟩ <;> rw [hx] at h
  · cases h
  · exact ⟨a, s₁, rfl, h⟩

/-- A value that code at a place gives is the value of the code. -/
theorem Evaluation.at_eq_ok {x : Evaluation σ α} {template : String} {pos : Option SourcePos} {s s' : Scene σ} {a : α}
    (h : x.at template pos s = (.ok a, s')) : x s = (.ok a, s') := by
  have hrun : x.at template pos s = ((x s).1.mapError _, (x s).2) := rfl
  rw [hrun] at h
  rcases hx : x s with ⟨_ | b, s₁⟩ <;> rw [hx] at h <;> cases h
  rfl

namespace Keeps

/-- What a computation keeps and how it ends is shown run by run. -/
theorem of_run {x : ExceptT ε (StateM (Scene σ)) α}
    (h : ∀ s, I s → I (x s).2 ∧ match (x s).1 with
      | .ok a => P a
      | .error e => E e) : Keeps I E P x where
  kept s hs := (h s hs).1
  gives s hs a ha := by
    have hend := (h s hs).2
    rwa [ha] at hend
  fails s hs e he := by
    have hend := (h s hs).2
    rwa [he] at hend

theorem run {x : ExceptT ε (StateM (Scene σ)) α} (hx : Keeps I E P x) {s : Scene σ} (hs : I s) :
    I (x s).2 ∧ match (x s).1 with
      | .ok a => P a
      | .error e => E e := by
  refine ⟨hx.kept s hs, ?_⟩
  cases h : (x s).1 with
  | ok a => exact hx.gives s hs a h
  | error e => exact hx.fails s hs e h

theorem pure {a : α} (h : P a) : Keeps I E P (pure a : ExceptT ε (StateM (Scene σ)) α) where
  kept _ hs := hs
  gives := by
    intro s _ b hb
    cases hb
    exact h
  fails := by
    intro s _ e he
    cases he

theorem throw {e : ε} (h : E e) : Keeps I E P (throw e : ExceptT ε (StateM (Scene σ)) α) where
  kept _ hs := hs
  gives := by
    intro s _ b hb
    cases hb
  fails := by
    intro s _ e' he
    cases he
    exact h

theorem get : Keeps I E I (MonadState.get : ExceptT ε (StateM (Scene σ)) (Scene σ)) where
  kept _ hs := hs
  gives := by
    intro s hs b hb
    cases hb
    exact hs
  fails := by
    intro s _ e he
    cases he

theorem bind {x : ExceptT ε (StateM (Scene σ)) α} {f : α → ExceptT ε (StateM (Scene σ)) β} (hx : Keeps I E P x)
    (hf : ∀ a, P a → Keeps I E Q (f a)) : Keeps I E Q (x >>= f) := by
  refine .of_run fun s hs => ?_
  have hkept := hx.kept s hs
  rw [bind_run]
  cases h : (x s).1 with
  | error e => exact ⟨hkept, hx.fails s hs e h⟩
  | ok a => exact (hf a (hx.gives s hs a h)).run hkept

theorem mono {E₁ : ε → Prop} {P₁ : α → Prop} {x : ExceptT ε (StateM (Scene σ)) α} (hx : Keeps I E P x)
    (hE : ∀ e, E e → E₁ e) (hP : ∀ a, P a → P₁ a) : Keeps I E₁ P₁ x where
  kept := hx.kept
  gives s hs a ha := hP a (hx.gives s hs a ha)
  fails s hs e he := hE e (hx.fails s hs e he)

theorem adapt {f : ε → ε'} {x : ExceptT ε (StateM (Scene σ)) α} (hx : Keeps I E P x) (hf : ∀ e, E e → E' (f e)) :
    Keeps I E' P (ExceptT.adapt f x) := by
  have hrun : ∀ s, (ExceptT.adapt f x) s = ((x s).1.mapError f, (x s).2) := fun s => rfl
  refine .of_run fun s hs => ⟨hx.kept s hs, ?_⟩
  rw [hrun]
  cases h : (x s).1 with
  | error e => exact hf e (hx.fails s hs e h)
  | ok a => exact hx.gives s hs a h

/-- Computations for the items of a list keep what each of them keeps. -/
theorem mapM {γ : Type} {f : γ → ExceptT ε (StateM (Scene σ)) α} {xs : List γ} (hf : ∀ x ∈ xs, Keeps I E P (f x)) :
    Keeps I E (fun as => as.length = xs.length) (xs.mapM f) := by
  induction xs with
  | nil =>
    rw [List.mapM_nil]
    exact pure rfl
  | cons x xs ih =>
    rw [List.mapM_cons]
    refine bind (hf x List.mem_cons_self) fun a _ => ?_
    refine bind (ih fun y hy => hf y (List.mem_cons_of_mem _ hy)) fun as has => ?_
    exact pure (congrArg (· + 1) has)

end Keeps

end Stencil
