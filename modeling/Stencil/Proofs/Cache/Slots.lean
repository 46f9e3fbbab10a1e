import Stencil.Cache.Race
import Stencil.Proofs.Lookup

/-! The slots of a race of callers.

A slot is registered once, for one key, by the caller that leads its compilation. A key is never both stored and
registered, so a compilation that ends stores its success beside the others and takes the place of none. -/

namespace Stencil

variable {τ : Type}

/-! ### Look-ups in a cache -/

namespace Cache
variable {c : Cache τ} {key : CacheKey} {slot : Nat} {e : CacheEntry τ}

theorem entry?_eq_some (h : c.entry? key = some e) : e ∈ c.entries ∧ e.key = key :=
  ⟨List.mem_of_find?_eq_some h, by simpa using List.find?_some h⟩

theorem entry?_eq_none : c.entry? key = none ↔ ∀ e ∈ c.entries, e.key ≠ key := by
  simp [ entry?, List.find?_eq_none]

theorem mem_of_slot? (h : c.slot? key = some slot) : (key, slot) ∈ c.inFlight := by
  obtain ⟨p, hp, rfl⟩ := Option.map_eq_some_iff.mp h
  have hk : p.1 = key := by simpa using List.find?_some hp
  rw [← hk]
  exact List.mem_of_find?_eq_some hp

theorem slot?_eq_none : c.slot? key = none ↔ ∀ p ∈ c.inFlight, p.1 ≠ key := by
  simp [slot?, List.find?_eq_none]

theorem slot?_of_mem (hn : (c.inFlight.map (·.1)).Nodup) (h : (key, slot) ∈ c.inFlight) : c.slot? key = some slot := by
  have hfind : c.inFlight.find? (fun p => p.1 == key) = some (key, slot) := find?_of_nodup hn h
  rw [slot?, hfind]
  rfl

/-- The end of a compilation: it is stored, or it is only taken out, or its slot is not registered any more. -/
theorem complete_cases (c : Cache τ) (key : CacheKey) (slot : Nat) (outcome : Except TemplateError τ) :
    (c.slot? key = some slot ∧ ∃ value, outcome = .ok value ∧
      c.complete key slot outcome =
        { c with
          inFlight := c.inFlight.filter (·.1 != key)
          entries := ⟨key, slot, value⟩ :: c.entries.filter (·.key != key) }) ∨
    (c.slot? key = some slot ∧ (∀ value, outcome ≠ .ok value) ∧
      c.complete key slot outcome = { c with inFlight := c.inFlight.filter (·.1 != key) }) ∨
    (c.slot? key ≠ some slot ∧ c.complete key slot outcome = c) := by
  by_cases h : c.slot? key = some slot
  · cases outcome with
    | ok value => exact .inl ⟨h, value, rfl, by simp [complete, h]⟩
    | error e => exact .inr (.inl ⟨h, by simp, by simp [complete, h]⟩)
  · exact .inr (.inr ⟨h, by simp [complete, h]⟩)

theorem next_complete (c : Cache τ) (key : CacheKey) (slot : Nat) (outcome : Except TemplateError τ) :
    (c.complete key slot outcome).next = c.next := by
  unfold complete
  split
  · cases outcome <;> rfl
  · rfl

theorem filter_key_eq_self (h : ∀ e ∈ c.entries, e.key ≠ key) : c.entries.filter (·.key != key) = c.entries := by
  rw [List.filter_eq_self]
  simpa using h

end Cache

namespace Race

/-! ### Moves -/

/-- What a move does, with what makes it possible. -/
inductive Step (r : Race τ) : Move τ → Race τ → Prop
  | hit {key : CacheKey} {e : CacheEntry τ} (he : r.cache.entry? key = some e) :
      Step r (.arrive key) { r with callers := r.callers ++ [⟨key, .returned (.compiled e.slot e.value)⟩] }
  | wait {key : CacheKey} {slot : Nat} (he : r.cache.entry? key = none) (hs : r.cache.slot? key = some slot) :
      Step r (.arrive key) { r with callers := r.callers ++ [⟨key, .waiting slot⟩] }
  | lead {key : CacheKey} (he : r.cache.entry? key = none) (hs : r.cache.slot? key = none) :
      Step r (.arrive key)
        { r with
          cache := { r.cache with inFlight := (key, r.cache.next) :: r.cache.inFlight, next := r.cache.next + 1 }
          callers := r.callers ++ [⟨key, .leading r.cache.next⟩] }
  | compile {i slot : Nat} {key : CacheKey} (hc : r.caller? i = some ⟨key, .leading slot⟩) :
      Step r (.compile i) (r.goOn i (.compiling slot))
  | finish {i slot : Nat} {key : CacheKey} (attempt : Attempt τ) (hc : r.caller? i = some ⟨key, .compiling slot⟩) :
      Step r (.finish i attempt)
        ({ r with cache := r.cache.complete key slot (attempt.outcome key) }.goOn i (.publishing slot attempt))
  | publish {i slot : Nat} {key : CacheKey} {attempt : Attempt τ}
      (hc : r.caller? i = some ⟨key, .publishing slot attempt⟩) :
      Step r (.publish i) ({ r with outcomes := (slot, attempt.outcome key) :: r.outcomes }.goOn i
        (.returned (.ofAttempt slot attempt)))
  | wake {i slot : Nat} {key : CacheKey} {o : Except TemplateError τ} (hc : r.caller? i = some ⟨key, .waiting slot⟩)
      (ho : (slot, o) ∈ r.outcomes) : Step r (.wake i) (r.goOn i (.returned (.ofOutcome slot o)))
  | invalidate (template : String) : Step r (.invalidate template) { r with cache := r.cache.invalidate template }
  | clear : Step r .clear { r with cache := r.cache.clear }

theorem step_of_move? {r s : Race τ} {m : Move τ} (h : r.move? m = some s) : Step r m s := by
  cases m with
  | arrive key =>
    simp only [move?, Cache.lookup] at h
    cases he : r.cache.entry? key with
    | some e =>
      simp only [he, Option.some.injEq] at h
      exact h ▸ .hit he
    | none =>
      cases hs : r.cache.slot? key with
      | some slot =>
        simp only [he, hs, Option.some.injEq] at h
        exact h ▸ .wait he hs
      | none =>
        simp only [he, hs, Option.some.injEq] at h
        exact h ▸ .lead he hs
  | compile i =>
    simp only [move?] at h
    split at h
    · rename_i key slot hc
      cases h
      exact .compile hc
    · cases h
  | finish i attempt =>
    simp only [move?] at h
    split at h
    · rename_i key slot hc
      cases h
      exact .finish attempt hc
    · cases h
  | publish i =>
    simp only [move?] at h
    split at h
    · rename_i key slot attempt hc
      cases h
      exact .publish hc
    · cases h
  | wake i =>
    simp only [move?] at h
    split at h
    · rename_i key slot hc
      obtain ⟨o, ho, rfl⟩ := Option.map_eq_some_iff.mp h
      obtain ⟨p, hp, rfl⟩ := Option.map_eq_some_iff.mp ho
      have hslot : p.1 = slot := by simpa using List.find?_some hp
      exact .wake hc (hslot ▸ List.mem_of_find?_eq_some hp)
    · cases h
  | invalidate template =>
    cases h
    exact .invalidate template
  | clear =>
    cases h
    exact .clear

/-- A caller after another one, or itself, has gone on. -/
theorem caller?_goOn_eq_some {r : Race τ} {i j : Nat} {phase : Phase τ} {c : Caller τ}
    (h : (r.goOn i phase).caller? j = some c) :
    (j = i ∧ ∃ d, r.caller? i = some d ∧ c = { d with phase }) ∨ (j ≠ i ∧ r.caller? j = some c) := by
  simp only [caller?, goOn, List.getElem?_modify] at h
  by_cases hij : i = j
  · subst hij
    obtain ⟨d, hd, hc⟩ := Option.map_eq_some_iff.mp h
    exact .inl ⟨rfl, d, hd, by simpa using hc.symm⟩
  · obtain ⟨d, hd, hc⟩ := Option.map_eq_some_iff.mp h
    simp only [if_neg hij] at hc
    exact .inr ⟨fun h => hij h.symm, by rw [← hc]; exact hd⟩

theorem caller?_goOn_of_ne {r : Race τ} {i j : Nat} (h : j ≠ i) (phase : Phase τ) :
    (r.goOn i phase).caller? j = r.caller? j := by
  simp [caller?, goOn, Ne.symm h]

/-- A caller after one more has come. -/
theorem caller?_arrive {r : Race τ} {cache : Cache τ} {new c : Caller τ} {j : Nat}
    (h : Race.caller? { r with cache := cache, callers := r.callers ++ [new] } j = some c) :
    (j = r.callers.length ∧ c = new) ∨ (j < r.callers.length ∧ r.caller? j = some c) := by
  simp only [caller?] at h
  rcases Nat.lt_trichotomy j r.callers.length with hj | hj | hj
  · rw [List.getElem?_append_left hj] at h
    exact .inr ⟨hj, h⟩
  · subst hj
    rw [List.getElem?_append_right (Nat.le_refl _)] at h
    simp only [Nat.sub_self, List.getElem?_cons_zero, Option.some.injEq] at h
    exact .inl ⟨rfl, h.symm⟩
  · rw [List.getElem?_append_right (by omega), List.getElem?_eq_none (by simp; omega)] at h
    cases h

/-! ### Leaders -/

end Race

/-- The slot that a caller has compiled for and whose outcome it has yet to publish. -/
def Phase.owned? : Phase τ → Option Nat
  | leading slot | compiling slot | publishing slot _ => some slot
  | waiting _ | returned _ => none

namespace Race

/-- The caller that came as the `i`-th leads the compilation for a slot, and it has not ended. -/
def Leads (r : Race τ) (i : Nat) (key : CacheKey) (slot : Nat) : Prop :=
  r.caller? i = some ⟨key, .leading slot⟩ ∨ r.caller? i = some ⟨key, .compiling slot⟩

theorem Leads.owned {r : Race τ} {i slot : Nat} {key : CacheKey} (h : r.Leads i key slot) :
    ∃ c, r.caller? i = some c ∧ c.phase.owned? = some slot := by
  rcases h with h | h
  · exact ⟨_, h, rfl⟩
  · exact ⟨_, h, rfl⟩

theorem Leads.caller {r : Race τ} {i slot : Nat} {key : CacheKey} {c : Caller τ} (h : r.Leads i key slot)
    (hc : r.caller? i = some c) : c.key = key := by
  rcases h with h | h <;> rw [h] at hc <;> cases hc <;> rfl

theorem Leads.congr {r s : Race τ} {i slot : Nat} {key : CacheKey} (h : r.Leads i key slot)
    (hi : s.caller? i = r.caller? i) : s.Leads i key slot := by
  unfold Leads
  rw [hi]
  exact h

theorem Leads.arrive {r : Race τ} {i slot : Nat} {key : CacheKey} (h : r.Leads i key slot) (cache : Cache τ)
    (new : Caller τ) : Race.Leads { r with cache, callers := r.callers ++ [new] } i key slot := by
  have before : ∀ {c}, r.caller? i = some c → (r.callers ++ [new])[i]? = some c := fun hc => by
    rw [List.getElem?_append_left (List.getElem?_eq_some_iff.mp hc).1]
    exact hc
  rcases h with h | h
  · exact .inl (before h)
  · exact .inr (before h)

/-- What holds of the slots of every race that can come. -/
structure Sound (r : Race τ) : Prop where
  /-- A key is stored once. -/
  stored : (r.cache.entries.map (·.key)).Nodup
  /-- A key is registered once. -/
  registered : (r.cache.inFlight.map (·.1)).Nodup
  apart : ∀ e ∈ r.cache.entries, ∀ p ∈ r.cache.inFlight, p.1 ≠ e.key
  /-- The next slot is new. -/
  owned_lt : ∀ i c slot, r.caller? i = some c → c.phase.owned? = some slot → slot < r.cache.next
  led : ∀ p ∈ r.cache.inFlight, ∃ i, r.Leads i p.1 p.2
  owner : ∀ i j c d slot, r.caller? i = some c → r.caller? j = some d → c.phase.owned? = some slot →
    d.phase.owned? = some slot → i = j

namespace Sound
variable {r s : Race τ}

theorem empty : Sound ({} : Race τ) where
  stored := List.nodup_nil
  registered := List.nodup_nil
  apart _ h := by cases h
  owned_lt i c _ h := by simp [caller?] at h
  led _ h := by cases h
  owner i j c d _ h := by simp [caller?] at h

theorem slot?_iff (h : Sound r) {key : CacheKey} {slot : Nat} :
    r.cache.slot? key = some slot ↔ (key, slot) ∈ r.cache.inFlight :=
  ⟨Cache.mem_of_slot?, Cache.slot?_of_mem h.registered⟩

/-- Nothing is stored under a key that is registered. -/
theorem not_stored (h : Sound r) {key : CacheKey} {slot : Nat} (hs : r.cache.slot? key = some slot) :
    ∀ e ∈ r.cache.entries, e.key ≠ key := fun e he hk =>
  h.apart e he (key, slot) (Cache.mem_of_slot? hs) hk.symm

/-- One caller that owns no slot more, or whose slot was its own before. -/
theorem goOn (h : Sound r) {i : Nat} {c : Caller τ} {phase : Phase τ} (hc : r.caller? i = some c)
    (hp : ∀ slot, phase.owned? = some slot → c.phase.owned? = some slot)
    (hl : ∀ p ∈ r.cache.inFlight, r.Leads i p.1 p.2 → (r.goOn i phase).Leads i p.1 p.2) : Sound (r.goOn i phase) where
  stored := h.stored
  registered := h.registered
  apart := h.apart
  owned_lt j d slot hd ho := by
    rcases caller?_goOn_eq_some hd with ⟨rfl, d', hd', rfl⟩ | ⟨-, hd⟩
    · exact h.owned_lt j c slot hc (hp slot ho)
    · exact h.owned_lt j d slot hd ho
  led p hmem := by
    obtain ⟨j, hj⟩ := h.led p hmem
    by_cases hij : j = i
    · subst hij
      exact ⟨j, hl p hmem hj⟩
    · exact ⟨j, hj.congr (caller?_goOn_of_ne hij phase)⟩
  owner j k d e slot hd he hod hoe := by
    -- Who owns the slot afterwards owned it before.
    have before : ∀ {j d}, (r.goOn i phase).caller? j = some d → d.phase.owned? = some slot →
        ∃ d', r.caller? j = some d' ∧ d'.phase.owned? = some slot := by
      intro j d hd hod
      rcases caller?_goOn_eq_some hd with ⟨rfl, d', hd', rfl⟩ | ⟨-, hd⟩
      · exact ⟨c, hc, hp slot hod⟩
      · exact ⟨d, hd, hod⟩
    obtain ⟨d', hd', hod'⟩ := before hd hod
    obtain ⟨e', he', hoe'⟩ := before he hoe
    exact h.owner j k d' e' slot hd' he' hod' hoe'

/-- A caller has come that owns no slot. -/
theorem arrive (h : Sound r) {c : Caller τ} (hc : c.phase.owned? = none) :
    Sound { r with callers := r.callers ++ [c] } where
  stored := h.stored
  registered := h.registered
  apart := h.apart
  owned_lt j d slot hd ho := by
    rcases caller?_arrive hd with ⟨-, rfl⟩ | ⟨-, hd⟩
    · rw [hc] at ho
      cases ho
    · exact h.owned_lt j d slot hd ho
  led p hp := by
    obtain ⟨j, hj⟩ := h.led p hp
    exact ⟨j, hj.arrive _ c⟩
  owner j k d e slot hd he hod hoe := by
    rcases caller?_arrive hd with ⟨-, rfl⟩ | ⟨-, hd⟩
    · rw [hc] at hod
      cases hod
    rcases caller?_arrive he with ⟨-, rfl⟩ | ⟨-, he⟩
    · rw [hc] at hoe
      cases hoe
    exact h.owner j k d e slot hd he hod hoe

/-- A caller has come that leads the next slot. -/
theorem lead (h : Sound r) {key : CacheKey} (he : r.cache.entry? key = none) (hs : r.cache.slot? key = none) :
    Sound { r with
      cache := { r.cache with inFlight := (key, r.cache.next) :: r.cache.inFlight, next := r.cache.next + 1 }
      callers := r.callers ++ [⟨key, .leading r.cache.next⟩] } where
  stored := h.stored
  registered := by
    rw [List.map_cons, List.nodup_cons]
    refine ⟨fun hmem => ?_, h.registered⟩
    obtain ⟨p, hp, hk⟩ := List.mem_map.mp hmem
    exact Cache.slot?_eq_none.mp hs p hp hk
  apart e hmem p hp := by
    rcases List.mem_cons.mp hp with rfl | hp
    · exact fun hk => Cache.entry?_eq_none.mp he e hmem hk.symm
    · exact h.apart e hmem p hp
  owned_lt j d slot hd ho := by
    rcases caller?_arrive hd with ⟨-, rfl⟩ | ⟨-, hd⟩
    · cases ho
      exact Nat.lt_succ_self _
    · exact Nat.lt_succ_of_lt (h.owned_lt j d slot hd ho)
  led p hp := by
    rcases List.mem_cons.mp hp with rfl | hp
    · exact ⟨r.callers.length, .inl (by simp [caller?])⟩
    · obtain ⟨j, hj⟩ := h.led p hp
      exact ⟨j, hj.arrive _ _⟩
  owner j k d e slot hd he hod hoe := by
    -- The next slot belongs to no caller that came before.
    rcases caller?_arrive hd with ⟨rfl, rfl⟩ | ⟨-, hd⟩ <;> rcases caller?_arrive he with ⟨rfl, rfl⟩ | ⟨-, he⟩
    · rfl
    · cases hod
      exact absurd (h.owned_lt k e _ he hoe) (Nat.lt_irrefl _)
    · cases hoe
      exact absurd (h.owned_lt j d _ hd hod) (Nat.lt_irrefl _)
    · exact h.owner j k d e slot hd he hod hoe

/-- The cache has lost registered slots, and what it stores is still stored once and apart from them. -/
theorem withCache (h : Sound r) {c : Cache τ} (stored : (c.entries.map (·.key)).Nodup)
    (sub : c.inFlight.Sublist r.cache.inFlight) (apart : ∀ e ∈ c.entries, ∀ p ∈ c.inFlight, p.1 ≠ e.key)
    (hn : c.next = r.cache.next) : Sound { r with cache := c } where
  stored := stored
  registered := h.registered.sublist (sub.map _)
  apart := apart
  owned_lt j d slot hd ho := by
    show slot < c.next
    rw [hn]
    exact h.owned_lt j d slot hd ho
  led p hp := h.led p (sub.subset hp)
  owner := h.owner

/-- The cache has lost some of what it holds. -/
theorem shrink (h : Sound r) {c : Cache τ} (he : c.entries.Sublist r.cache.entries)
    (hf : c.inFlight.Sublist r.cache.inFlight) (hn : c.next = r.cache.next) : Sound { r with cache := c } :=
  h.withCache (h.stored.sublist (he.map _)) hf
    (fun e hmem p hp => h.apart e (he.subset hmem) p (hf.subset hp)) hn

theorem complete (h : Sound r) (key : CacheKey) (slot : Nat) (outcome : Except TemplateError τ) :
    Sound { r with cache := r.cache.complete key slot outcome } := by
  rcases Cache.complete_cases r.cache key slot outcome with ⟨hs, value, -, heq⟩ | ⟨-, -, heq⟩ | ⟨-, heq⟩ <;> rw [heq]
  · rw [Cache.filter_key_eq_self (h.not_stored hs)]
    refine h.withCache ?_ List.filter_sublist ?_ rfl
    · rw [List.map_cons, List.nodup_cons]
      refine ⟨fun hmem => ?_, h.stored⟩
      obtain ⟨e, he, hk⟩ := List.mem_map.mp hmem
      exact h.not_stored hs e he hk
    · intro e he p hp
      obtain ⟨hp, hpk⟩ := List.mem_filter.mp hp
      rcases List.mem_cons.mp he with rfl | he
      · simpa using hpk
      · exact h.apart e he p hp
  · exact h.shrink (List.Sublist.refl _) List.filter_sublist rfl
  · exact h

/-- A compilation that has ended is not registered. -/
theorem not_mem_complete (h : Sound r) (key : CacheKey) (slot : Nat) (outcome : Except TemplateError τ) :
    (key, slot) ∉ (r.cache.complete key slot outcome).inFlight := by
  rcases Cache.complete_cases r.cache key slot outcome with ⟨-, value, -, heq⟩ | ⟨-, -, heq⟩ | ⟨hs, heq⟩ <;> rw [heq]
  · simp
  · simp
  · exact fun hmem => hs (h.slot?_iff.mpr hmem)

/-- Every move keeps the slots sound. -/
theorem step (h : Sound r) {m : Move τ} (hm : Step r m s) : Sound s := by
  cases hm with
  | hit he => exact h.arrive rfl
  | wait he hs => exact h.arrive rfl
  | lead he hs => exact h.lead he hs
  | @compile i slot key hc =>
    refine h.goOn hc (fun _ ho => ho) fun p _ hl => ?_
    rcases hl with hl | hl <;> rw [hl] at hc <;> cases hc
    exact .inr (by simp [caller?_goOn, hl])
  | @finish i slot key attempt hc =>
    refine (h.complete key slot _).goOn hc (fun _ ho => ho) fun p hp hl => ?_
    have hl : r.Leads i p.1 p.2 := hl
    rcases hl with hl | hl <;> rw [hl] at hc <;> cases hc
    exact absurd hp (h.not_mem_complete _ _ _)
  | @publish i slot key attempt hc =>
    have h' : Sound { r with outcomes := (slot, attempt.outcome key) :: r.outcomes } :=
      ⟨h.stored, h.registered, h.apart, h.owned_lt, h.led, h.owner⟩
    refine h'.goOn hc (fun _ ho => by cases ho) fun p _ hl => ?_
    have hl : r.Leads i p.1 p.2 := hl
    rcases hl with hl | hl <;> rw [hl] at hc <;> cases hc
  | @wake i slot key o hc ho =>
    refine h.goOn hc (fun _ ho => by cases o <;> cases ho) fun p _ hl => ?_
    rcases hl with hl | hl <;> rw [hl] at hc <;> cases hc
  | invalidate template => exact h.shrink List.filter_sublist List.filter_sublist rfl
  | clear => exact h.shrink (List.nil_sublist _) (List.nil_sublist _) rfl

end Sound

theorem Reachable.sound {r : Race τ} (hr : r.Reachable) : r.Sound :=
  Reachable.induction .empty (fun _ _ _ h hm => h.step (step_of_move? hm)) hr

end Race

end Stencil
