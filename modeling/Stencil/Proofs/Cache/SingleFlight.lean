import Stencil.Proofs.Cache.History

/-! Single flight: a key is compiled by one caller at a time.

As long as nothing is taken away for a key, a compilation that is registered for it stays registered until it ends, and
a success stays stored. So of the compilations registered in that time one runs at a time and one succeeds at most. -/

namespace Stencil

variable {τ : Type}

/-! ### What other keys do not touch -/

namespace Cache
variable {c : Cache τ} {key other : CacheKey} {template : String}

theorem slot?_cons_of_ne (h : other ≠ key) (slot next : Nat) :
    Cache.slot? { c with inFlight := (other, slot) :: c.inFlight, next } key = c.slot? key := by
  simp [slot?, h]

theorem find?_filter_key {α : Type} {f : α → CacheKey} {p : CacheKey → Bool} (hp : p key = true) (xs : List α) :
    (xs.filter fun x => p (f x)).find? (fun x => f x == key) = xs.find? fun x => f x == key := by
  rw [List.find?_filter]
  congr 1
  funext x
  by_cases hx : f x = key
  · simp [hx, hp]
  · simp [hx]

theorem slot?_of_filter {d : Cache τ} {p : CacheKey → Bool} (hp : p key = true)
    (hd : d.inFlight = c.inFlight.filter fun q => p q.1) : d.slot? key = c.slot? key := by
  rw [slot?, hd, find?_filter_key hp]
  rfl

theorem entry?_of_filter {d : Cache τ} {p : CacheKey → Bool} (hp : p key = true)
    (hd : d.entries = c.entries.filter fun e => p e.key) : d.entry? key = c.entry? key := by
  rw [ entry?, hd, find?_filter_key hp]
  rfl

theorem slot?_invalidate_of_ne (h : key.template ≠ template) : (c.invalidate template).slot? key = c.slot? key :=
  slot?_of_filter (p := fun k => k.template != template) (by simpa using h) rfl

theorem entry?_invalidate_of_ne (h : key.template ≠ template) : Cache.entry? (c.invalidate template) key = c.entry? key :=
  entry?_of_filter (p := fun k => k.template != template) (by simpa using h) rfl

theorem slot?_complete_of_ne (h : key ≠ other) (slot : Nat) (outcome : Except TemplateError τ) :
    (c.complete other slot outcome).slot? key = c.slot? key := by
  rcases complete_cases c other slot outcome with ⟨-, value, -, heq⟩ | ⟨-, -, heq⟩ | ⟨-, heq⟩ <;> rw [heq]
  · exact slot?_of_filter (p := fun k => k != other) (by simpa using h) rfl
  · exact slot?_of_filter (p := fun k => k != other) (by simpa using h) rfl

theorem entry?_complete_of_ne (h : key ≠ other) (slot : Nat) (outcome : Except TemplateError τ) :
    Cache.entry? (c.complete other slot outcome) key = c.entry? key := by
  rcases complete_cases c other slot outcome with ⟨-, value, -, heq⟩ | ⟨-, -, heq⟩ | ⟨-, heq⟩ <;> rw [heq]
  · rw [ entry?, List.find?_cons_of_neg (by simpa using Ne.symm h), find?_filter_key (p := fun k => k != other)]
    · rfl
    · simpa using h
  · rfl

end Cache

namespace Race

/-- The slot is registered for the key, or is yet to be registered. -/
def Since (r : Race τ) (key : CacheKey) (slot : Nat) : Prop :=
  r.cache.slot? key = some slot ∨ r.cache.next ≤ slot

instance (r : Race τ) (key : CacheKey) (slot : Nat) : Decidable (r.Since key slot) :=
  inferInstanceAs (Decidable (_ ∨ _))

/-- The number of successes, among those that moves make, of compilations for the key that are registered since. -/
def successes (r : Race τ) (key : CacheKey) (ms : List (Move τ)) : Nat :=
  (r.makes ms).countP fun e => e.key = key ∧ r.Since key e.slot

variable {r s t : Race τ} {m : Move τ} {ms : List (Move τ)} {key : CacheKey}

/-- The end of a compilation replaces nothing that is stored. -/
theorem Sound.entry?_finish (h : Sound r) {i : Nat} {attempt : Attempt τ} (hm : r.move? (.finish i attempt) = some s)
    {e : CacheEntry τ} (he : r.cache.entry? key = some e) : s.cache.entry? key = some e := by
  cases step_of_move? hm with
  | @finish i slot other attempt hc =>
    show Cache.entry? (r.cache.complete other slot _) key = some e
    by_cases hk : key = other
    · subst hk
      obtain ⟨hmem, hek⟩ := Cache.entry?_eq_some he
      rcases Cache.complete_cases r.cache key slot (attempt.outcome key) with ⟨hs, -⟩ | ⟨-, -, heq⟩ | ⟨-, heq⟩
      · exact absurd hek (h.not_stored hs e hmem)
      · rw [heq]
        exact he
      · rw [heq]
        exact he
    · rw [Cache.entry?_complete_of_ne hk]
      exact he

theorem Sound.leader_unique (h : Sound r) {i j slot : Nat} {other : CacheKey} (hi : r.Leads i key slot)
    (hj : r.Leads j other slot) : j = i := by
  obtain ⟨c, hc, hco⟩ := hi.owned
  obtain ⟨d, hd, hdo⟩ := hj.owned
  exact h.owner j i d c slot hd hc hdo hco

/-! ### While nothing is taken away for a key -/

/-- What holds of a key after moves none of which takes away what is stored or registered for it. -/
structure Undisturbed (r : Race τ) (key : CacheKey) (ms : List (Move τ)) (s : Race τ) : Prop where
  next_le : r.cache.next ≤ s.cache.next
  since : ∀ slot, s.cache.slot? key = some slot → r.Since key slot
  registered : ∀ i slot, s.Leads i key slot → r.Since key slot → s.cache.slot? key = some slot
  once : r.successes key ms ≤ 1
  stored : s.cache.entry? key = none → r.successes key ms = 0

theorem Sound.undisturbed (h : Sound r) (key : CacheKey) : Undisturbed r key [] r where
  next_le := Nat.le_refl _
  since _ hs := .inl hs
  registered i slot hl hs := by
    rcases hs with hs | hs
    · exact hs
    · obtain ⟨c, hc, ho⟩ := hl.owned
      exact absurd (h.owned_lt i c slot hc ho) (Nat.not_lt.mpr hs)
  once := Nat.zero_le _
  stored _ := rfl

theorem successes_snoc (hr : r.run? ms = some s)
    (hm : ∀ e, s.made? m = some e → e.key = key → ¬r.Since key e.slot) :
    r.successes key (ms ++ [m]) = r.successes key ms := by
  unfold successes makes
  rw [along_snoc _ hr, List.countP_append]
  cases h : s.made? m with
  | none => rfl
  | some e => simpa using hm e h

theorem successes_snoc_le (hr : r.run? ms = some s) (m : Move τ) :
    r.successes key (ms ++ [m]) ≤ r.successes key ms + 1 := by
  unfold successes makes
  rw [along_snoc _ hr, List.countP_append]
  cases s.made? m with
  | none => exact Nat.le_succ _
  | some e => exact Nat.add_le_add_left List.countP_le_length _

/-! ### Who leads after a move led before it -/

theorem Leads.of_arrive {cache : Cache τ} {new : Caller τ} {i slot : Nat}
    (h : Race.Leads { r with cache := cache, callers := r.callers ++ [new] } i key slot)
    (hn : new.phase.owned? ≠ some slot ∨ new.key ≠ key) : r.Leads i key slot := by
  have before : ∀ {phase},
      ({ r with cache := cache, callers := r.callers ++ [new] } : Race τ).caller? i = some ⟨key, phase⟩ →
      phase.owned? = some slot → r.caller? i = some ⟨key, phase⟩ := by
    intro phase hc ho
    rcases caller?_arrive hc with ⟨-, rfl⟩ | ⟨-, hc⟩
    · rcases hn with hn | hn
      · exact absurd ho hn
      · exact absurd rfl hn
    · exact hc
  rcases h with h | h
  · exact .inl (before h rfl)
  · exact .inr (before h rfl)

theorem Leads.of_goOn {i j slot : Nat} {phase : Phase τ} (h : (r.goOn i phase).Leads j key slot)
    (hi : (r.goOn i phase).Leads i key slot → r.Leads i key slot) : r.Leads j key slot := by
  by_cases hij : j = i
  · subst hij
    exact hi h
  · exact h.congr (caller?_goOn_of_ne hij phase).symm

/-- A caller that has gone on to what is no lead leads nothing. -/
theorem not_leads_goOn {i slot : Nat} {phase : Phase τ} (hl : phase ≠ .leading slot) (hc : phase ≠ .compiling slot) :
    ¬(r.goOn i phase).Leads i key slot := by
  rintro (h | h)
  · rcases caller?_goOn_eq_some h with ⟨-, d, -, heq⟩ | ⟨hne, -⟩
    · cases heq
      exact hl rfl
    · exact hne rfl
  · rcases caller?_goOn_eq_some h with ⟨-, d, -, heq⟩ | ⟨hne, -⟩
    · cases heq
      exact hc rfl
    · exact hne rfl

/-- A move that leaves alone what the cache holds for the key, and whose caller takes no lead in compiling it. -/
theorem Undisturbed.quiet (u : Undisturbed r key ms s) (hr : r.run? ms = some s) (hm : s.move? m = some t)
    (hslot : t.cache.slot? key = s.cache.slot? key) (hentry : t.cache.entry? key = s.cache.entry? key)
    (hl : ∀ i slot, t.Leads i key slot → s.Leads i key slot)
    (hmade : ∀ e, s.made? m = some e → e.key = key → ¬r.Since key e.slot) : Undisturbed r key (ms ++ [m]) t where
  next_le := Nat.le_trans u.next_le (step_of_move? hm).next_le
  since slot h := u.since slot (hslot ▸ h)
  registered i slot h hs := by
    rw [hslot]
    exact u.registered i slot (hl i slot h) hs
  once := by
    rw [successes_snoc hr hmade]
    exact u.once
  stored h := by
    rw [successes_snoc hr hmade]
    exact u.stored (hentry ▸ h)

/-- The compilation that is registered for the key has ended. -/
theorem Undisturbed.ended (u : Undisturbed r key ms s) (h : s.Sound) (hr : r.run? ms = some s)
    (hm : s.move? m = some t) {i slot : Nat} (hs : s.cache.slot? key = some slot) (hi : s.Leads i key slot)
    (hslot : t.cache.slot? key = none) (hl : ∀ j other, t.Leads j key other → j ≠ i ∧ s.Leads j key other)
    (hmade : t.cache.entry? key = none → s.made? m = none) : Undisturbed r key (ms ++ [m]) t where
  next_le := Nat.le_trans u.next_le (step_of_move? hm).next_le
  since other ho := by
    rw [hslot] at ho
    cases ho
  registered j other hj hsince := by
    obtain ⟨hne, hj⟩ := hl j other hj
    have hother := u.registered j other hj hsince
    rw [hs] at hother
    cases hother
    exact absurd (h.leader_unique hi hj) hne
  once := by
    have hnone : s.cache.entry? key = none := Cache.entry?_eq_none.mpr (h.not_stored hs)
    have hle : r.successes key (ms ++ [m]) ≤ r.successes key ms + 1 := successes_snoc_le hr m
    rwa [u.stored hnone] at hle
  stored ht := by
    have hnone : s.cache.entry? key = none := Cache.entry?_eq_none.mpr (h.not_stored hs)
    rw [successes_snoc hr, u.stored hnone]
    intro e he
    rw [hmade ht] at he
    cases he

/-- A caller leads a new slot for the key. -/
theorem Undisturbed.lead (u : Undisturbed r key ms s) (hr : r.run? ms = some s) (hs : s.cache.slot? key = none)
    (hentry : t.cache.entry? key = s.cache.entry? key) (hnext : t.cache.next = s.cache.next + 1)
    (hslot : t.cache.slot? key = some s.cache.next)
    (hl : ∀ i slot, t.Leads i key slot → slot ≠ s.cache.next → s.Leads i key slot) (hmade : s.made? m = none) :
    Undisturbed r key (ms ++ [m]) t where
  next_le := by
    rw [hnext]
    exact Nat.le_succ_of_le u.next_le
  since slot h := by
    rw [hslot] at h
    cases h
    exact .inr u.next_le
  registered i slot hi hsince := by
    by_cases hn : slot = s.cache.next
    · rw [hn]
      exact hslot
    · have := u.registered i slot (hl i slot hi hn) hsince
      rw [hs] at this
      cases this
  once := by
    rw [successes_snoc hr (by simp [hmade])]
    exact u.once
  stored h := by
    rw [successes_snoc hr (by simp [hmade])]
    exact u.stored (hentry ▸ h)

/-- A compilation ends. -/
theorem Undisturbed.finish (u : Undisturbed r key ms s) (h : s.Sound) (hr : r.run? ms = some s) {i slot : Nat}
    {other : CacheKey} {attempt : Attempt τ} (hc : s.caller? i = some ⟨other, .compiling slot⟩)
    (hm : s.move? (.finish i attempt) = some t)
    (ht : t = goOn { s with cache := s.cache.complete other slot (attempt.outcome other) } i (.publishing slot attempt)) :
    Undisturbed r key (ms ++ [.finish i attempt]) t := by
  have hcache : t.cache = s.cache.complete other slot (attempt.outcome other) := ht ▸ rfl
  have hl : ∀ j slot', t.Leads j key slot' → j ≠ i ∧ s.Leads j key slot' := by
    intro j slot' hj
    rw [ht] at hj
    have hji : j ≠ i := by
      rintro rfl
      exact not_leads_goOn (by simp) (by simp) hj
    exact ⟨hji, hj.congr (caller?_goOn_of_ne hji _).symm⟩
  have hmade : ∀ e, s.made? (.finish i attempt) = some e →
      e.key = other ∧ e.slot = slot ∧ attempt.outcome other = .ok e.value := by
    intro e he
    obtain ⟨_, hfinish, hc'⟩ := made?_eq_some he
    cases hfinish
    rw [hc] at hc'
    cases hc'
    exact ⟨rfl, rfl, rfl⟩
  -- A compilation for another key leaves the slot and the entry of this key as they are.
  by_cases hko : key = other
  · subst hko
    rcases Cache.complete_cases s.cache key slot (attempt.outcome key) with
      ⟨hs, value, -, heq⟩ | ⟨hs, hfail, heq⟩ | ⟨hs, heq⟩ <;> rw [heq] at hcache
    · refine u.ended h hr hm hs (.inr hc) (by simp [hcache, Cache.slot?]) hl fun hnone => ?_
      simp [hcache, Cache.entry?] at hnone
    · refine u.ended h hr hm hs (.inr hc) (by simp [hcache, Cache.slot?]) hl fun _ => ?_
      cases he : s.made? (.finish i attempt) with
      | none => rfl
      | some e => exact absurd (hmade e he).2.2 (hfail _)
    · -- The slot was taken away before the time that is looked at.
      refine u.quiet hr hm (by rw [hcache]) (by rw [hcache]) (fun j slot' hj => (hl j slot' hj).2) fun e he _ hsince => ?_
      rw [(hmade e he).2.1] at hsince
      exact hs (u.registered i slot (.inr hc) hsince)
  · refine u.quiet hr hm (by rw [hcache, Cache.slot?_complete_of_ne hko]) (by rw [hcache, Cache.entry?_complete_of_ne hko])
      (fun j slot' hj => (hl j slot' hj).2) fun e he hek => ?_
    exact absurd (hek.symm.trans (hmade e he).1) hko

theorem Undisturbed.step (u : Undisturbed r key ms s) (h : s.Sound) (hr : r.run? ms = some s)
    (hm : s.move? m = some t) (hk : ¬m.Detaches key.template) : Undisturbed r key (ms ++ [m]) t := by
  cases step_of_move? hm with
  | hit he => exact u.quiet hr hm rfl rfl (fun _ _ hl => hl.of_arrive (.inl (by simp [Phase.owned?]))) (by simp [made?])
  | wait he hs =>
    exact u.quiet hr hm rfl rfl (fun _ _ hl => hl.of_arrive (.inl (by simp [Phase.owned?]))) (by simp [made?])
  | @lead other he hs =>
    by_cases hko : other = key
    · subst hko
      exact u.lead hr hs rfl rfl (by simp [Cache.slot?])
        (fun _ _ hl hne => hl.of_arrive (.inl (by simpa [Phase.owned?] using Ne.symm hne))) rfl
    · exact u.quiet hr hm (Cache.slot?_cons_of_ne hko _ _) rfl (fun _ _ hl => hl.of_arrive (.inr hko)) (by simp [made?])
  | @compile i slot other hc =>
    -- Who compiles the slot now led it before.
    refine u.quiet hr hm rfl rfl (fun j slot' hl => hl.of_goOn fun hi => ?_) (by simp [made?])
    rcases hi with hi | hi <;> rcases caller?_goOn_eq_some hi with ⟨-, d, hd, heq⟩ | ⟨hne, -⟩
    · cases heq
    · exact absurd rfl hne
    · rw [hc] at hd
      cases hd
      cases heq
      exact .inl hc
    · exact absurd rfl hne
  | finish attempt hc => exact u.finish h hr hc hm rfl
  | publish hc =>
    exact u.quiet hr hm rfl rfl (fun j slot' hl => Leads.of_goOn (r := { s with outcomes := _ }) hl
      fun hi => absurd hi (not_leads_goOn (by simp) (by simp))) (by simp [made?])
  | wake hc ho =>
    exact u.quiet hr hm rfl rfl (fun j slot' hl => hl.of_goOn
      fun hi => absurd hi (not_leads_goOn (by simp) (by simp))) (by simp [made?])
  | invalidate template =>
    have hne : key.template ≠ template := fun heq => hk (.inl (heq ▸ rfl))
    exact u.quiet hr hm (Cache.slot?_invalidate_of_ne hne) (Cache.entry?_invalidate_of_ne hne) (fun _ _ hl => hl)
      (by simp [made?])
  | clear => exact absurd (.inr rfl) hk

theorem Reachable.undisturbed (hr : r.Reachable) (hs : r.run? ms = some s)
    (hk : ∀ m ∈ ms, ¬m.Detaches key.template) : Undisturbed r key ms s := by
  refine run?_induction (r := r) (p := fun ms s => (∀ m ∈ ms, ¬m.Detaches key.template) → Undisturbed r key ms s)
    (fun _ => hr.sound.undisturbed key) ?_ ms s hs hk
  intro ms s m t hms ih hm hk
  have u := ih fun m' hm' => hk m' (List.mem_append_left _ hm')
  exact u.step (hr.run hms).sound hms hm (hk m (by simp))

/-! ### The property -/

/-- In every race that can come, no key is both stored and registered, each registered slot is led by exactly one caller
whose compilation has not ended, and the end of a compilation replaces nothing that is stored. While nothing is taken
away for a key, of the compilations that are registered for it one runs at a time and one succeeds, at most. -/
theorem single_flight (hr : r.Reachable) :
    (∀ key, ¬(r.cache.contains key = true ∧ (r.cache.slot? key).isSome = true)) ∧
    (∀ key slot, r.cache.slot? key = some slot →
      ∃ i, r.Leads i key slot ∧ ∀ j other, r.Leads j other slot → j = i) ∧
    (∀ i attempt s key e, r.move? (.finish i attempt) = some s → r.cache.entry? key = some e →
      s.cache.entry? key = some e) ∧
    (∀ key ms s, r.run? ms = some s → (∀ m ∈ ms, ¬m.Detaches key.template) →
      (∀ i j a b, s.caller? i = some ⟨key, .compiling a⟩ → s.caller? j = some ⟨key, .compiling b⟩ →
        r.Since key a → r.Since key b → i = j) ∧
      r.successes key ms ≤ 1) := by
  have h := hr.sound
  refine ⟨fun key ⟨hc, hs⟩ => ?_, fun key slot hs => ?_, fun i attempt s key e hm he => h.entry?_finish hm he,
    fun key ms s hms hk => ⟨fun i j a b hi hj ha hb => ?_, (hr.undisturbed hms hk).once⟩⟩
  · obtain ⟨e, he⟩ := Option.isSome_iff_exists.mp hc
    obtain ⟨slot, hslot⟩ := Option.isSome_iff_exists.mp hs
    obtain ⟨hmem, hkey⟩ := Cache.entry?_eq_some he
    exact h.not_stored hslot e hmem hkey
  · obtain ⟨i, hi⟩ := h.led (key, slot) (Cache.mem_of_slot? hs)
    exact ⟨i, hi, fun j other hj => h.leader_unique hi hj⟩
  · have u := hr.undisturbed hms hk
    have hsa := u.registered i a (.inr hi) ha
    have hsb := u.registered j b (.inr hj) hb
    rw [hsa] at hsb
    cases hsb
    exact (hr.run hms).sound.leader_unique (.inr hj) (.inr hi)

/-- Two callers of a page: the first compiles, and the second waits for it. -/
def twoCallers : Race Nat where
  cache := { inFlight := [(⟨"page", "dynamic"⟩, 0)], next := 1 }
  callers := [⟨⟨"page", "dynamic"⟩, .compiling 0⟩, ⟨⟨"page", "dynamic"⟩, .waiting 0⟩]

/-- The first caller is the only leader of the page's slot, and of what is made without an invalidation one succeeds at
most, however the callers go on. -/
theorem single_flight_twoCallers :
    twoCallers.Reachable ∧ twoCallers.cache.slot? ⟨"page", "dynamic"⟩ = some 0 ∧
      (∃ i, twoCallers.Leads i ⟨"page", "dynamic"⟩ 0 ∧ ∀ j other, twoCallers.Leads j other 0 → j = i) ∧
      ∀ ms s, twoCallers.run? ms = some s → (∀ m ∈ ms, ¬m.Detaches "page") →
        twoCallers.successes ⟨"page", "dynamic"⟩ ms ≤ 1 := by
  have hr : twoCallers.Reachable :=
    ⟨[.arrive ⟨"page", "dynamic"⟩, .compile 0, .arrive ⟨"page", "dynamic"⟩], rfl⟩
  obtain ⟨-, hled, -, honce⟩ := single_flight hr
  refine ⟨hr, rfl, hled _ 0 rfl, fun ms s hs hk => ?_⟩
  exact (honce _ ms s hs hk).2

end Race

end Stencil
