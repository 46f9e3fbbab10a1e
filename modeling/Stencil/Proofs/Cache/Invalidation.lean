import Mathlib.Data.List.Nodup
import Stencil.Proofs.Cache.History

/-! Invalidation is not undone by a compilation that was under way.

Whoever asks for a template after it was invalidated gets a compilation that was registered later: what is stored or
registered for the template, and what such a caller holds, has a slot that was new then. A result comes from the
compilation of its slot, whichever way it reached the caller. -/

namespace Stencil

variable {τ : Type}

/-- The slot that a caller works for, waits for, or has its result from. -/
def Phase.slot? : Phase τ → Option Nat
  | leading slot | compiling slot | publishing slot _ | waiting slot | returned (.compiled slot _) => some slot
  | returned _ => none

/-- The slot of a compilation that a caller has begun and whose outcome it has yet to publish. -/
def Phase.begun? : Phase τ → Option Nat
  | compiling slot | publishing slot _ => some slot
  | _ => none

/-- The result that a caller has, with its slot. -/
def Phase.result? : Phase τ → Option (Nat × τ)
  | publishing slot (.ends (.ok value)) => some (slot, value)
  | returned (.compiled slot value) => some (slot, value)
  | _ => none

namespace Race

variable {r s t : Race τ} {m : Move τ} {ms ns : List (Move τ)}

/-! ### Callers, move by move -/

/-- What holds of all callers still holds of them after a move if it holds of the phases that the move leads to. -/
theorem Step.callers {p : Nat → Caller τ → Prop} (h : Step r m s) (hr : ∀ i c, r.caller? i = some c → p i c)
    (hit : ∀ key e, r.cache.entry? key = some e → p r.callers.length ⟨key, .returned (.compiled e.slot e.value)⟩)
    (wait : ∀ key slot, r.cache.slot? key = some slot → p r.callers.length ⟨key, .waiting slot⟩)
    (lead : ∀ key, m = .arrive key → (r.cache.lookup key).1 = .lead r.cache.next →
      p r.callers.length ⟨key, .leading r.cache.next⟩)
    (compile : ∀ i key slot, m = .compile i → r.caller? i = some ⟨key, .leading slot⟩ → p i ⟨key, .compiling slot⟩)
    (finish : ∀ i key slot attempt, m = .finish i attempt → r.caller? i = some ⟨key, .compiling slot⟩ →
      p i ⟨key, .publishing slot attempt⟩)
    (publish : ∀ i key slot attempt, r.caller? i = some ⟨key, .publishing slot attempt⟩ →
      p i ⟨key, .returned (.ofAttempt slot attempt)⟩)
    (wake : ∀ i key slot o, r.caller? i = some ⟨key, .waiting slot⟩ → (slot, o) ∈ r.outcomes →
      p i ⟨key, .returned (.ofOutcome slot o)⟩) :
    ∀ i c, s.caller? i = some c → p i c := by
  intro j c hc
  -- A caller that goes on keeps its key; every other caller stays as it was.
  have went : ∀ {q : Race τ} {i : Nat} {d : Caller τ} {phase : Phase τ}, (∀ i, q.caller? i = r.caller? i) →
      (q.goOn i phase).caller? j = some c → r.caller? i = some d → p i { d with phase } → p j c := by
    intro q i d phase hq hj hd hp
    rcases caller?_goOn_eq_some hj with ⟨rfl, d', hd', rfl⟩ | ⟨-, hj⟩
    · rw [hq, hd] at hd'
      cases hd'
      exact hp
    · exact hr j c (hq j ▸ hj)
  cases h with
  | @hit key e he =>
    rcases caller?_arrive hc with ⟨rfl, rfl⟩ | ⟨-, hc⟩
    · exact hit key e he
    · exact hr j c hc
  | @wait key slot he hs =>
    rcases caller?_arrive hc with ⟨rfl, rfl⟩ | ⟨-, hc⟩
    · exact wait key slot hs
    · exact hr j c hc
  | @lead key he hs =>
    rcases caller?_arrive hc with ⟨rfl, rfl⟩ | ⟨-, hc⟩
    · exact lead key rfl (by simp [Cache.lookup, he, hs])
    · exact hr j c hc
  | @compile i slot key hi => exact went (fun _ => rfl) hc hi (compile i key slot rfl hi)
  | @finish i slot key attempt hi => exact went (fun _ => rfl) hc hi (finish i key slot attempt rfl hi)
  | @publish i slot key attempt hi => exact went (fun _ => rfl) hc hi (publish i key slot attempt hi)
  | @wake i slot key o hi ho => exact went (fun _ => rfl) hc hi (wake i key slot o hi ho)
  | invalidate template => exact hr j c hc
  | clear => exact hr j c hc

/-! ### Slots since an invalidation -/

/-- What is stored and registered for a template, and the slots of the callers for it that came as the `n`-th or later,
are not below a bound. -/
structure Renewed (template : String) (n bound : Nat) (r : Race τ) : Prop where
  next : bound ≤ r.cache.next
  stored : ∀ e ∈ r.cache.entries, e.key.template = template → bound ≤ e.slot
  registered : ∀ p ∈ r.cache.inFlight, p.1.template = template → bound ≤ p.2
  callers : ∀ i c, r.caller? i = some c → n ≤ i → c.key.template = template →
    ∀ slot, c.phase.slot? = some slot → bound ≤ slot

theorem slot?_ofAttempt {slot other : Nat} {attempt : Attempt τ}
    (h : (Phase.returned (.ofAttempt slot attempt)).slot? = some other) : other = slot := by
  rcases attempt with (_ | _) | _ <;> cases h
  rfl

theorem slot?_ofOutcome {slot other : Nat} {o : Except TemplateError τ}
    (h : (Phase.returned (.ofOutcome slot o)).slot? = some other) : other = slot := by
  cases o <;> cases h
  rfl

/-- What is stored after the end of a compilation was stored before, or is what has been made. -/
theorem mem_complete {c : Cache τ} {key : CacheKey} {slot : Nat} {outcome : Except TemplateError τ} {e : CacheEntry τ}
    (h : e ∈ (c.complete key slot outcome).entries) :
    e ∈ c.entries ∨ c.slot? key = some slot ∧ e.key = key ∧ e.slot = slot ∧ outcome = .ok e.value := by
  rcases Cache.complete_cases c key slot outcome with ⟨hs, value, ho, heq⟩ | ⟨-, -, heq⟩ | ⟨-, heq⟩ <;> rw [heq] at h
  · rcases List.mem_cons.mp h with rfl | h
    · exact .inr ⟨hs, rfl, rfl, ho⟩
    · exact .inl (List.mem_of_mem_filter h)
  · exact .inl h
  · exact .inl h

theorem inFlight_complete_subset (c : Cache τ) (key : CacheKey) (slot : Nat) (outcome : Except TemplateError τ) :
    (c.complete key slot outcome).inFlight ⊆ c.inFlight := by
  rcases Cache.complete_cases c key slot outcome with ⟨-, _, -, heq⟩ | ⟨-, -, heq⟩ | ⟨-, heq⟩ <;> rw [heq]
  · exact List.filter_sublist.subset
  · exact List.filter_sublist.subset
  · exact List.Subset.refl _

namespace Renewed
variable {template : String} {n bound : Nat}

/-- After an invalidation nothing is stored or registered for the template. -/
theorem of_detaches (hm : m.Detaches template) (hs : r.move? m = some s) :
    Renewed template r.callers.length r.cache.next s := by
  have none : ∀ i c, r.caller? i = some c → ¬r.callers.length ≤ i := fun i c hc =>
    Nat.not_le.mpr (List.getElem?_eq_some_iff.mp hc).1
  rcases hm with rfl | rfl
  · cases hs
    refine ⟨Nat.le_refl _, fun e he ht => ?_, fun p hp ht => ?_, fun i c hc hi => absurd hi (none i c hc)⟩
    · simp [Cache.invalidate, ht] at he
    · simp [Cache.invalidate, ht] at hp
  · cases hs
    exact ⟨Nat.le_refl _, by simp [Cache.clear], by simp [Cache.clear], fun i c hc hi => absurd hi (none i c hc)⟩

/-- A caller that came since the invalidation has its slot from what is stored or registered, or a new one, and keeps it. -/
theorem callers_step (h : Renewed template n bound r) (hm : Step r m s) :
    ∀ i c, s.caller? i = some c → n ≤ i → c.key.template = template →
      ∀ slot, c.phase.slot? = some slot → bound ≤ slot := by
  refine hm.callers (p := fun i c => n ≤ i → c.key.template = template →
    ∀ slot, c.phase.slot? = some slot → bound ≤ slot) h.callers ?hit ?wait ?lead ?compile ?finish ?publish ?wake
  case hit =>
    intro key e he _ ht slot hslot
    obtain ⟨hmem, hkey⟩ := Cache.entry?_eq_some he
    cases hslot
    exact h.stored e hmem (hkey.symm ▸ ht)
  case wait =>
    intro key slot hs _ ht other hslot
    cases hslot
    exact h.registered _ (Cache.mem_of_slot? hs) ht
  case lead =>
    intro key _ _ _ _ slot hslot
    cases hslot
    exact h.next
  case compile =>
    intro i key slot _ hc hi ht other hslot
    exact h.callers i _ hc hi ht other hslot
  case finish =>
    intro i key slot attempt _ hc hi ht other hslot
    exact h.callers i _ hc hi ht other hslot
  case publish =>
    intro i key slot attempt hc hi ht other hslot
    exact h.callers i _ hc hi ht other (congrArg some (slot?_ofAttempt hslot).symm)
  case wake =>
    intro i key slot o hc _ hi ht other hslot
    exact h.callers i _ hc hi ht other (congrArg some (slot?_ofOutcome hslot).symm)

theorem step (h : Renewed template n bound r) (hm : Step r m s) : Renewed template n bound s where
  next := Nat.le_trans h.next hm.next_le
  stored e he ht := by
    cases hm with
    | @finish i slot key attempt hc =>
      rcases mem_complete he with he | ⟨hs, hkey, hslot, -⟩
      · exact h.stored e he ht
      · rw [hslot]
        exact h.registered _ (Cache.mem_of_slot? hs) (hkey ▸ ht)
    | invalidate other => exact h.stored e (List.mem_of_mem_filter he) ht
    | clear => cases he
    | _ => exact h.stored e he ht
  registered p hp ht := by
    cases hm with
    | lead he hs =>
      rcases List.mem_cons.mp hp with rfl | hp
      · exact h.next
      · exact h.registered p hp ht
    | finish attempt hc => exact h.registered p (inFlight_complete_subset _ _ _ _ hp) ht
    | invalidate other => exact h.registered p (List.mem_of_mem_filter hp) ht
    | clear => cases hp
    | _ => exact h.registered p hp ht
  callers := h.callers_step hm

theorem run (h : Renewed template n bound r) (hs : r.run? ms = some s) : Renewed template n bound s :=
  run?_induction (r := r) (p := fun _ s => Renewed template n bound s) h
    (fun _ _ _ _ _ h hm => h.step (step_of_move? hm)) ms s hs

end Renewed

/-! ### Where a result comes from -/

/-- The compilation that is registered in a move. -/
def led? (r : Race τ) : Move τ → Option (CacheKey × Nat)
  | .arrive key => match (r.cache.lookup key).1 with
    | .lead slot => some (key, slot)
    | _ => none
  | _ => none

/-- The compilations that are registered in moves, in order. -/
def leads (r : Race τ) : List (Move τ) → List (CacheKey × Nat) := along led? r

theorem led?_arrive {key : CacheKey} (h : (r.cache.lookup key).1 = .lead r.cache.next) :
    r.led? (.arrive key) = some (key, r.cache.next) := by
  simp [led?, h]

theorem led?_eq_some {p : CacheKey × Nat} (h : r.led? m = some p) : p.2 = r.cache.next := by
  unfold led? at h
  split at h
  · rename_i key
    split at h
    · rename_i slot hl
      cases h
      unfold Cache.lookup at hl
      split at hl
      · cases hl
      · split at hl <;> cases hl
        rfl
    · cases h
  · cases h

theorem Step.next_of_led {p : CacheKey × Nat} (h : Step r m s) (hp : r.led? m = some p) :
    s.cache.next = r.cache.next + 1 := by
  cases h with
  | hit he => simp [led?, Cache.lookup, he] at hp
  | wait he hs => simp [led?, Cache.lookup, he, hs] at hp
  | lead => rfl
  | _ => cases hp

/-- What the moves that led to a race have registered, started and made, and what of it a race can hold. -/
structure Recorded (leads starts : List (CacheKey × Nat)) (makes : List (CacheEntry τ)) (r : Race τ) : Prop where
  /-- A slot is registered once. -/
  nodup : (leads.map (·.2)).Nodup
  below : ∀ p ∈ leads, p.2 < r.cache.next
  registered : ∀ p ∈ r.cache.inFlight, p ∈ leads
  stored : ∀ e ∈ r.cache.entries, e ∈ makes
  published : ∀ slot value, (slot, .ok value) ∈ r.outcomes → ∃ key, ⟨key, slot, value⟩ ∈ makes
  started : ∀ p ∈ starts, p ∈ leads
  made : ∀ e ∈ makes, (e.key, e.slot) ∈ starts
  slots : ∀ i c, r.caller? i = some c → ∀ slot, c.phase.slot? = some slot → (c.key, slot) ∈ leads
  begun : ∀ i c, r.caller? i = some c → ∀ slot, c.phase.begun? = some slot → (c.key, slot) ∈ starts
  results : ∀ i c, r.caller? i = some c → ∀ slot value, c.phase.result? = some (slot, value) →
    ⟨c.key, slot, value⟩ ∈ makes

namespace Recorded
variable {leads starts : List (CacheKey × Nat)} {makes : List (CacheEntry τ)}

theorem empty : Recorded [] [] [] ({} : Race τ) where
  nodup := List.nodup_nil
  below _ h := by cases h
  registered _ h := by cases h
  stored _ h := by cases h
  published _ _ h := by cases h
  started _ h := by cases h
  made _ h := by cases h
  slots i c h := by simp [caller?] at h
  begun i c h := by simp [caller?] at h
  results i c h := by simp [caller?] at h

/-- A slot is registered for one key. -/
theorem key_eq (h : Recorded leads starts makes r) {k k' : CacheKey} {slot : Nat} (hk : (k, slot) ∈ leads)
    (hk' : (k', slot) ∈ leads) : k = k' := by
  have := List.inj_on_of_nodup_map h.nodup hk hk' rfl
  exact (Prod.mk.inj this).1

/-- A result of a slot that a caller has its slot from was made for the caller's key. -/
theorem made_for (h : Recorded leads starts makes r) {key k : CacheKey} {slot : Nat} {value : τ}
    (hs : (key, slot) ∈ leads) (hm : ⟨k, slot, value⟩ ∈ makes) : ⟨key, slot, value⟩ ∈ makes := by
  rw [h.key_eq hs (h.started _ (h.made _ hm))]
  exact hm

theorem nodup_step (h : Recorded leads starts makes r) :
    ((leads ++ (r.led? m).toList).map (·.2)).Nodup := by
  cases hl : r.led? m with
  | none => simpa using h.nodup
  | some p =>
    simp only [Option.toList_some, List.map_append, List.map_cons, List.map_nil]
    refine List.Nodup.append h.nodup (List.nodup_singleton _) ?_
    simp only [List.disjoint_singleton, List.mem_map, not_exists, not_and]
    intro q hq heq
    have := h.below q hq
    rw [heq, led?_eq_some hl] at this
    exact Nat.lt_irrefl _ this

theorem below_step (h : Recorded leads starts makes r) (hm : Step r m s) :
    ∀ p ∈ leads ++ (r.led? m).toList, p.2 < s.cache.next := by
  intro p hp
  rcases List.mem_append.mp hp with hp | hp
  · exact Nat.lt_of_lt_of_le (h.below p hp) hm.next_le
  · have hl : r.led? m = some p := by simpa using hp
    rw [hm.next_of_led hl, led?_eq_some hl]
    exact Nat.lt_succ_self _

theorem registered_step (h : Recorded leads starts makes r) (hm : Step r m s) :
    ∀ p ∈ s.cache.inFlight, p ∈ leads ++ (r.led? m).toList := by
  intro p hp
  cases hm with
  | lead he hs =>
    rcases List.mem_cons.mp hp with rfl | hp
    · simp [led?, Cache.lookup, he, hs]
    · exact List.mem_append_left _ (h.registered p hp)
  | finish attempt hc => exact List.mem_append_left _ (h.registered p (inFlight_complete_subset _ _ _ _ hp))
  | invalidate other => exact List.mem_append_left _ (h.registered p (List.mem_of_mem_filter hp))
  | clear => cases hp
  | _ => exact List.mem_append_left _ (h.registered p hp)

/-- What is stored after a move was stored before it, or was made by the compilation that ends with it. -/
theorem stored_step (h : Recorded leads starts makes r) (hm : Step r m s) :
    ∀ e ∈ s.cache.entries, e ∈ makes ++ (r.made? m).toList := by
  intro e he
  cases hm with
  | @finish i slot key attempt hc =>
    rcases mem_complete he with he | ⟨-, hkey, hslot, ho⟩
    · exact List.mem_append_left _ (h.stored e he)
    · cases attempt with
      | ends outcome =>
        have ho : outcome = .ok e.value := ho
        subst ho hkey hslot
        simp [made?_finish hc]
      | breaksOff => cases ho
  | invalidate other => exact List.mem_append_left _ (h.stored e (List.mem_of_mem_filter he))
  | clear => cases he
  | _ => exact List.mem_append_left _ (h.stored e he)

theorem published_step (h : Recorded leads starts makes r) (hm : Step r m s) :
    ∀ slot value, (slot, .ok value) ∈ s.outcomes → ∃ key, ⟨key, slot, value⟩ ∈ makes ++ (r.made? m).toList := by
  intro slot value ho
  have before : (slot, .ok value) ∈ r.outcomes → ∃ key, ⟨key, slot, value⟩ ∈ makes ++ (r.made? m).toList := by
    intro ho
    obtain ⟨key, hk⟩ := h.published slot value ho
    exact ⟨key, List.mem_append_left _ hk⟩
  cases hm with
  | @publish i slot' key attempt hc =>
    rcases List.mem_cons.mp ho with heq | ho
    · cases attempt with
      | ends outcome =>
        cases heq
        exact ⟨key, List.mem_append_left _ (h.results i _ hc slot value rfl)⟩
      | breaksOff => cases heq
    · exact before ho
  | _ => exact before ho

theorem slots_step (h : Recorded leads starts makes r) (hm : Step r m s) :
    ∀ i c, s.caller? i = some c → ∀ slot, c.phase.slot? = some slot →
      (c.key, slot) ∈ leads ++ (r.led? m).toList := by
  refine hm.callers (p := fun _ c => ∀ slot, c.phase.slot? = some slot → (c.key, slot) ∈ leads ++ _)
    ?old ?hit ?wait ?lead ?compile ?finish ?publish ?wake
  case old => exact fun i c hc slot hs => List.mem_append_left _ (h.slots i c hc slot hs)
  case hit =>
    intro key e he slot hs
    obtain ⟨hmem, hkey⟩ := Cache.entry?_eq_some he
    cases hs
    rw [← hkey]
    exact List.mem_append_left _ (h.started _ (h.made _ (h.stored e hmem)))
  case wait =>
    intro key slot hs other ho
    cases ho
    exact List.mem_append_left _ (h.registered _ (Cache.mem_of_slot? hs))
  case lead =>
    rintro key rfl hl slot hs
    cases hs
    simp [led?_arrive hl]
  case compile => exact fun i key slot _ hc other ho => List.mem_append_left _ (h.slots i _ hc other ho)
  case finish => exact fun i key slot attempt _ hc other ho => List.mem_append_left _ (h.slots i _ hc other ho)
  case publish =>
    exact fun i key slot attempt hc other ho =>
      List.mem_append_left _ (h.slots i _ hc other (congrArg some (slot?_ofAttempt ho).symm))
  case wake =>
    exact fun i key slot o hc _ other ho =>
      List.mem_append_left _ (h.slots i _ hc other (congrArg some (slot?_ofOutcome ho).symm))

theorem begun_step (h : Recorded leads starts makes r) (hm : Step r m s) :
    ∀ i c, s.caller? i = some c → ∀ slot, c.phase.begun? = some slot →
      (c.key, slot) ∈ starts ++ (r.started? m).toList := by
  refine hm.callers (p := fun _ c => ∀ slot, c.phase.begun? = some slot → (c.key, slot) ∈ starts ++ _)
    ?old ?hit ?wait ?lead ?compile ?finish ?publish ?wake
  case old => exact fun i c hc slot hs => List.mem_append_left _ (h.begun i c hc slot hs)
  case hit => exact fun key e _ slot hs => by cases hs
  case wait => exact fun key slot _ other ho => by cases ho
  case lead => exact fun key _ _ slot hs => by cases hs
  case compile =>
    rintro i key slot rfl hc other ho
    cases ho
    simp [started?, hc]
  case finish => exact fun i key slot attempt _ hc other ho => List.mem_append_left _ (h.begun i _ hc other ho)
  case publish => exact fun i key slot attempt hc other ho => by cases ho
  case wake => exact fun i key slot o hc _ other ho => by cases ho

/-- A caller has its result from the cache, from the compilation that it ran, or from the outcome that it waited for. -/
theorem results_step (h : Recorded leads starts makes r) (hm : Step r m s) :
    ∀ i c, s.caller? i = some c → ∀ slot value, c.phase.result? = some (slot, value) →
      ⟨c.key, slot, value⟩ ∈ makes ++ (r.made? m).toList := by
  refine hm.callers (p := fun _ c => ∀ slot value, c.phase.result? = some (slot, value) →
    ⟨c.key, slot, value⟩ ∈ makes ++ _) ?old ?hit ?wait ?lead ?compile ?finish ?publish ?wake
  case old => exact fun i c hc slot value hv => List.mem_append_left _ (h.results i c hc slot value hv)
  case hit =>
    intro key e he slot value hv
    obtain ⟨hmem, hkey⟩ := Cache.entry?_eq_some he
    cases hv
    rw [← hkey]
    exact List.mem_append_left _ (h.stored e hmem)
  case wait => exact fun key slot _ other value ho => by cases ho
  case lead => exact fun key _ _ slot value hs => by cases hs
  case compile => exact fun i key slot _ _ other value ho => by cases ho
  case finish =>
    rintro i key slot attempt rfl hc other value hv
    rcases attempt with (_ | _) | _ <;> cases hv
    simp [made?_finish hc]
  case publish =>
    intro i key slot attempt hc other value hv
    rcases attempt with (_ | _) | _ <;> cases hv
    exact List.mem_append_left _ (h.results i _ hc slot value rfl)
  case wake =>
    intro i key slot o hc ho other value hv
    cases o with
    | error e => cases hv
    | ok v =>
      cases hv
      obtain ⟨k, hk⟩ := h.published slot value ho
      exact List.mem_append_left _ (h.made_for (h.slots i _ hc slot rfl) hk)

theorem step (h : Recorded leads starts makes r) (hm : Step r m s) :
    Recorded (leads ++ (r.led? m).toList) (starts ++ (r.started? m).toList) (makes ++ (r.made? m).toList) s where
  nodup := h.nodup_step
  below := h.below_step hm
  registered := h.registered_step hm
  stored := h.stored_step hm
  published := h.published_step hm
  started p hp := by
    rcases List.mem_append.mp hp with hp | hp
    · exact List.mem_append_left _ (h.started p hp)
    · have hs : r.started? m = some p := by simpa using hp
      obtain ⟨i, -, hc⟩ := started?_eq_some hs
      exact List.mem_append_left _ (h.slots i _ hc p.2 rfl)
  made e he := by
    rcases List.mem_append.mp he with he | he
    · exact List.mem_append_left _ (h.made e he)
    · have he : r.made? m = some e := by simpa using he
      obtain ⟨i, -, hc⟩ := made?_eq_some he
      exact List.mem_append_left _ (h.begun i _ hc e.slot rfl)
  slots := h.slots_step hm
  begun := h.begun_step hm
  results := h.results_step hm

end Recorded

theorem recorded (hr : ({} : Race τ).run? ms = some r) :
    Recorded (({} : Race τ).leads ms) (({} : Race τ).starts ms) (({} : Race τ).makes ms) r := by
  refine run?_induction (r := ({} : Race τ))
    (p := fun ms r => Recorded (({} : Race τ).leads ms) (({} : Race τ).starts ms) (({} : Race τ).makes ms) r)
    .empty ?_ ms r hr
  intro ms r m s hr h hm
  have := h.step (step_of_move? hm)
  rwa [leads, starts, makes, ← along_snoc _ hr m, ← along_snoc _ hr m, ← along_snoc _ hr m] at this

/-! ### The property -/

/-- A caller that comes after a template was invalidated, or the cache cleared, and that returns a compilation for one
of the template's keys: the compilation was started, and made, after the invalidation, and none for its slot was
started before. -/
theorem returned_after_invalidation {i : Nat} {key : CacheKey} {slot : Nat} {value : τ}
    (hr : ({} : Race τ).run? ms = some r) (hm : m.Detaches key.template) (hs : r.run? (m :: ns) = some s)
    (hi : r.callers.length ≤ i) (hc : s.caller? i = some ⟨key, .returned (.compiled slot value)⟩) :
    (key, slot) ∈ r.starts (m :: ns) ∧ ⟨key, slot, value⟩ ∈ r.makes (m :: ns) ∧
      ∀ other, (other, slot) ∉ ({} : Race τ).starts ms := by
  have hall := recorded ((run?_append_eq_some hr).mpr hs)
  have hold := recorded hr
  -- The slot was new at the invalidation.
  have hnew : r.cache.next ≤ slot := by
    rw [run?_cons] at hs
    obtain ⟨q, hq, hs⟩ := Option.bind_eq_some_iff.mp hs
    exact ((Renewed.of_detaches hm hq).run hs).callers i _ hc hi rfl slot rfl
  have hbefore : ∀ other, (other, slot) ∉ ({} : Race τ).starts ms := fun other h =>
    Nat.not_le.mpr (hold.below _ (hold.started _ h)) hnew
  have hmade := hall.results i _ hc slot value rfl
  have hstarted := hall.made _ hmade
  rw [makes, along_append _ hr] at hmade
  rw [starts, along_append _ hr] at hstarted
  refine ⟨?_, ?_, hbefore⟩
  · exact (List.mem_append.mp hstarted).resolve_left (hbefore key)
  · refine (List.mem_append.mp hmade).resolve_left fun h => ?_
    exact hbefore key (hold.made _ h)

/-- A page is invalidated while its first caller compiles it. The next caller compiles it again, and the first
compilation, which ends in between, is not what it returns. -/
theorem returned_after_invalidation_page :
    let page : CacheKey := ⟨"page", "dynamic"⟩
    let before : List (Move Nat) := [.arrive page, .compile 0]
    let after : List (Move Nat) :=
      [.arrive page, .finish 0 (.ends (.ok 7)), .compile 1, .finish 1 (.ends (.ok 8)), .publish 1]
    ∃ r s, ({} : Race Nat).run? before = some r ∧ r.run? (.invalidate "page" :: after) = some s ∧
      s.caller? 1 = some ⟨page, .returned (.compiled 1 8)⟩ ∧
      (page, 1) ∈ r.starts (.invalidate "page" :: after) ∧ ∀ other, (other, 1) ∉ ({} : Race Nat).starts before := by
  intro page before after
  obtain ⟨r, hr⟩ : ∃ r, ({} : Race Nat).run? before = some r := ⟨_, rfl⟩
  have hpage : ∃ s, r.run? (.invalidate "page" :: after) = some s ∧
      s.caller? 1 = some ⟨page, .returned (.compiled 1 8)⟩ ∧ r.callers.length ≤ 1 := by
    cases hr
    exact ⟨_, rfl, rfl, Nat.le_refl _⟩
  obtain ⟨s, hs, hc, hi⟩ := hpage
  obtain ⟨hstarted, -, hbefore⟩ := returned_after_invalidation hr (.inl rfl) hs hi hc
  exact ⟨r, s, hr, hs, hc, hstarted, hbefore⟩

end Race

end Stencil
