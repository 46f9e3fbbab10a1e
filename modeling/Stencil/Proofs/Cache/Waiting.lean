import Stencil.Proofs.Cache.Invalidation

/-! Who waits for a compilation is served by it.

The outcome of a slot is published once, by the caller that leads its compilation. A caller that waits for the slot
has its leader before it until then, and returns with that outcome afterwards, whatever was invalidated in between.
Only a success of a slot's leader is stored. -/

namespace Stencil

variable {τ : Type}

/-- The publication of a slot's outcome: who led the compilation, for which key, and how it ended. -/
structure Publication (τ : Type) where
  leader : Nat
  key : CacheKey
  slot : Nat
  attempt : Attempt τ

/-- What is published. -/
def Publication.outcome (p : Publication τ) : Except TemplateError τ := p.attempt.outcome p.key

namespace Race

/-- What is published in a move. -/
def published? (r : Race τ) : Move τ → Option (Publication τ)
  | .publish i => match r.caller? i with
    | some ⟨key, .publishing slot attempt⟩ => some ⟨i, key, slot, attempt⟩
    | _ => none
  | _ => none

/-- What is published in moves, in order. -/
def publications (r : Race τ) (ms : List (Move τ)) : List (Publication τ) := along published? r ms

variable {r s q : Race τ} {m : Move τ} {ms : List (Move τ)} {pubs : List (Publication τ)}

/-! ### How a caller goes on -/

/-- What a move makes of the phase of a caller. -/
inductive Goes (r : Race τ) (m : Move τ) (j : Nat) : Phase τ → Phase τ → Prop
  | stay {phase : Phase τ} : Goes r m j phase phase
  | compile {slot : Nat} : Goes r m j (.leading slot) (.compiling slot)
  | finish {slot : Nat} {attempt : Attempt τ} : Goes r m j (.compiling slot) (.publishing slot attempt)
  | publish {slot : Nat} {attempt : Attempt τ} (hm : m = .publish j) :
      Goes r m j (.publishing slot attempt) (.returned (.ofAttempt slot attempt))
  | wake {slot : Nat} {o : Except TemplateError τ} (ho : (slot, o) ∈ r.outcomes) :
      Goes r m j (.waiting slot) (.returned (.ofOutcome slot o))

theorem caller?_append {j : Nat} {c : Caller τ} (hc : r.caller? j = some c) (cache : Cache τ) (new : Caller τ) :
    Race.caller? { r with cache, callers := r.callers ++ [new] } j = some c := by
  simp only [caller?]
  rw [List.getElem?_append_left (List.getElem?_eq_some_iff.mp hc).1]
  exact hc

theorem Step.goes (h : Step r m s) {j : Nat} {c : Caller τ} (hj : r.caller? j = some c) :
    ∃ phase', s.caller? j = some ⟨c.key, phase'⟩ ∧ Goes r m j c.phase phase' := by
  -- A caller goes on if the move is its own, and stays otherwise.
  have went : ∀ {t : Race τ} {i : Nat} {d : Caller τ} {after : Phase τ}, (∀ i, t.caller? i = r.caller? i) →
      r.caller? i = some d → (j = i → Goes r m j d.phase after) →
      ∃ phase', (t.goOn i after).caller? j = some ⟨c.key, phase'⟩ ∧ Goes r m j c.phase phase' := by
    intro t i d after ht hd hgo
    by_cases hij : j = i
    · subst hij
      rw [hj] at hd
      cases hd
      exact ⟨after, by rw [caller?_goOn, ht, hj]; rfl, hgo rfl⟩
    · exact ⟨c.phase, by rw [caller?_goOn_of_ne hij, ht, hj], .stay⟩
  cases h with
  | hit he => exact ⟨c.phase, caller?_append hj _ _, .stay⟩
  | wait he hs => exact ⟨c.phase, caller?_append hj _ _, .stay⟩
  | lead he hs => exact ⟨c.phase, caller?_append hj _ _, .stay⟩
  | compile hi => exact went (fun _ => rfl) hi fun _ => .compile
  | finish attempt hi => exact went (fun _ => rfl) hi fun _ => .finish
  | publish hi => exact went (fun _ => rfl) hi fun hij => .publish (hij ▸ rfl)
  | wake hi ho => exact went (fun _ => rfl) hi fun _ => .wake ho
  | invalidate template => exact ⟨c.phase, hj, .stay⟩
  | clear => exact ⟨c.phase, hj, .stay⟩

/-- Who has returned stays so. -/
theorem Step.returned (h : Step r m s) {j : Nat} {key : CacheKey} {receipt : Receipt τ}
    (hj : r.caller? j = some ⟨key, .returned receipt⟩) : s.caller? j = some ⟨key, .returned receipt⟩ := by
  obtain ⟨phase', hs, hgoes⟩ := h.goes hj
  cases hgoes
  exact hs

/-- Whoever has a slot to publish keeps it until then. -/
theorem Step.owned (h : Step r m s) {j slot : Nat} {c : Caller τ} (hj : r.caller? j = some c)
    (ho : c.phase.owned? = some slot) (hm : m ≠ .publish j) :
    ∃ d, s.caller? j = some d ∧ d.key = c.key ∧ d.phase.owned? = some slot := by
  obtain ⟨phase', hs, hgoes⟩ := h.goes hj
  refine ⟨_, hs, rfl, ?_⟩
  generalize c.phase = phase at ho hgoes
  cases hgoes with
  | stay => exact ho
  | compile => exact ho
  | finish => exact ho
  | publish hp => exact absurd hp hm
  | wake => cases ho

theorem published?_publish {i slot : Nat} {key : CacheKey} {attempt : Attempt τ}
    (hc : r.caller? i = some ⟨key, .publishing slot attempt⟩) :
    r.published? (.publish i) = some ⟨i, key, slot, attempt⟩ := by
  simp [published?, hc]

theorem mem_publications {i slot : Nat} {key : CacheKey} {attempt : Attempt τ} (pubs : List (Publication τ))
    (hc : r.caller? i = some ⟨key, .publishing slot attempt⟩) :
    ⟨i, key, slot, attempt⟩ ∈ pubs ++ (r.published? (.publish i)).toList := by
  rw [published?_publish hc]
  exact List.mem_append_right _ (List.mem_singleton_self _)

theorem published?_eq_some {p : Publication τ} (h : r.published? m = some p) :
    m = .publish p.leader ∧ r.caller? p.leader = some ⟨p.key, .publishing p.slot p.attempt⟩ := by
  unfold published? at h
  split at h
  · split at h
    · rename_i hc
      cases h
      exact ⟨rfl, hc⟩
    · cases h
  · cases h

/-! ### What is published -/

/-- What the publications in the moves that led to a race say about it. -/
structure Served (pubs : List (Publication τ)) (r : Race τ) : Prop where
  /-- A slot's outcome is published once. -/
  once : (pubs.map (·.slot)).Nodup
  below : ∀ p ∈ pubs, p.slot < r.cache.next
  outcomes : r.outcomes = (pubs.map fun p => (p.slot, p.outcome)).reverse
  /-- The outcome of a slot that a caller has yet to publish is not published. -/
  owned : ∀ i c, r.caller? i = some c → ∀ slot, c.phase.owned? = some slot → ∀ p ∈ pubs, p.slot ≠ slot
  leaders : ∀ p ∈ pubs, r.caller? p.leader = some ⟨p.key, .returned (.ofAttempt p.slot p.attempt)⟩
  waiting : ∀ i key slot, r.caller? i = some ⟨key, .waiting slot⟩ →
    (∃ j c, r.caller? j = some c ∧ c.key = key ∧ c.phase.owned? = some slot) ∨ ∃ p ∈ pubs, p.key = key ∧ p.slot = slot
  stored : ∀ e ∈ r.cache.entries, (∃ i, r.caller? i = some ⟨e.key, .publishing e.slot (.ends (.ok e.value))⟩) ∨
    ∃ p ∈ pubs, p.key = e.key ∧ p.slot = e.slot ∧ p.attempt = .ends (.ok e.value)

namespace Served

theorem empty : Served [] ({} : Race τ) where
  once := List.nodup_nil
  below _ h := by cases h
  outcomes := rfl
  owned i c h := by simp [caller?] at h
  leaders _ h := by cases h
  waiting i key slot h := by simp [caller?] at h
  stored _ h := by cases h

/-- The publication of a slot is the only one. -/
theorem unique (h : Served pubs r) {p p' : Publication τ} (hp : p ∈ pubs) (hp' : p' ∈ pubs) (hs : p'.slot = p.slot) :
    p' = p :=
  List.inj_on_of_nodup_map h.once hp' hp hs

theorem mem_outcomes (h : Served pubs r) {slot : Nat} {o : Except TemplateError τ} (ho : (slot, o) ∈ r.outcomes) :
    ∃ p ∈ pubs, p.slot = slot ∧ p.outcome = o := by
  rw [h.outcomes, List.mem_reverse] at ho
  obtain ⟨p, hp, heq⟩ := List.mem_map.mp ho
  cases heq
  exact ⟨p, hp, rfl, rfl⟩

theorem outcome? (h : Served pubs r) {p : Publication τ} (hp : p ∈ pubs) : r.outcome? p.slot = some p.outcome := by
  have hnodup : (r.outcomes.map (·.1)).Nodup := by
    rw [h.outcomes, List.map_reverse, List.nodup_reverse, List.map_map]
    exact h.once
  have hmem : (p.slot, p.outcome) ∈ r.outcomes := by
    rw [h.outcomes, List.mem_reverse]
    exact List.mem_map.mpr ⟨p, hp, rfl⟩
  have hfind : r.outcomes.find? (fun o => o.1 == p.slot) = some (p.slot, p.outcome) := find?_of_nodup hnodup hmem
  rw [Race.outcome?, hfind]
  rfl

/-- A publication that is made in a move is new. -/
theorem published (h : Served pubs r) {p : Publication τ} (hp : r.published? m = some p) : ∀ p' ∈ pubs, p'.slot ≠ p.slot :=
  h.owned _ _ (published?_eq_some hp).2 _ rfl

theorem once_step (h : Served pubs r) : ((pubs ++ (r.published? m).toList).map (·.slot)).Nodup := by
  cases hp : r.published? m with
  | none => simpa using h.once
  | some p =>
    rw [Option.toList_some, List.map_append, List.nodup_append']
    refine ⟨h.once, List.nodup_singleton _, ?_⟩
    simp only [List.map_cons, List.map_nil, List.disjoint_singleton, List.mem_map, not_exists, not_and]
    exact h.published hp

/-- A caller owns the slot that it owned before, or a new one. -/
theorem owned_of_step (h : Served pubs r) (hm : Step r m s) :
    ∀ i c, s.caller? i = some c → ∀ slot, c.phase.owned? = some slot → ∀ p ∈ pubs, p.slot ≠ slot := by
  refine hm.callers (p := fun _ c => ∀ slot, c.phase.owned? = some slot → ∀ p ∈ pubs, p.slot ≠ slot)
    h.owned ?hit ?wait ?lead ?compile ?finish ?publish ?wake
  case hit => exact fun key e _ slot ho => by cases ho
  case wait => exact fun key slot _ other ho => by cases ho
  case lead =>
    intro key _ _ slot ho p hp
    cases ho
    exact Nat.ne_of_lt (h.below p hp)
  case compile => exact fun i key slot _ hc other ho => h.owned i _ hc other ho
  case finish => exact fun i key slot attempt _ hc other ho => h.owned i _ hc other ho
  case publish => exact fun i key slot attempt _ other ho => by cases ho
  case wake => exact fun i key slot o _ _ other ho => by cases ho

theorem owned_step (h : Served pubs r) (hr : r.Sound) (hm : Step r m s) :
    ∀ i c, s.caller? i = some c → ∀ slot, c.phase.owned? = some slot →
      ∀ p ∈ pubs ++ (r.published? m).toList, p.slot ≠ slot := by
  intro i c hc slot ho p hp
  rcases List.mem_append.mp hp with hp | hp
  · exact h.owned_of_step hm i c hc slot ho p hp
  · -- The slot that is published in the move belonged to its leader alone.
    obtain ⟨rfl, hleader⟩ := published?_eq_some (Option.mem_toList.mp hp)
    cases hm with
    | publish hi =>
      rcases caller?_goOn_eq_some hc with ⟨rfl, d, -, rfl⟩ | ⟨hne, hc⟩
      · cases ho
      · rintro rfl
        exact hne (hr.owner _ _ _ _ p.slot hc hleader ho rfl)

theorem leaders_step (h : Served pubs r) (hm : Step r m s) :
    ∀ p ∈ pubs ++ (r.published? m).toList,
      s.caller? p.leader = some ⟨p.key, .returned (.ofAttempt p.slot p.attempt)⟩ := by
  intro p hp
  rcases List.mem_append.mp hp with hp | hp
  · exact hm.returned (h.leaders p hp)
  · obtain ⟨rfl, hc⟩ := published?_eq_some (Option.mem_toList.mp hp)
    cases hm with
    | publish hi =>
      rw [hc] at hi
      cases hi
      rw [caller?_goOn]
      show (r.caller? p.leader).map _ = _
      rw [hc]
      rfl

/-- A leader goes on to lead, unless it publishes. -/
theorem led_step (hm : Step r m s) {key : CacheKey} {slot : Nat}
    (h : ∃ j c, r.caller? j = some c ∧ c.key = key ∧ c.phase.owned? = some slot) :
    (∃ j c, s.caller? j = some c ∧ c.key = key ∧ c.phase.owned? = some slot) ∨
      ∃ p ∈ pubs ++ (r.published? m).toList, p.key = key ∧ p.slot = slot := by
  obtain ⟨j, c, hj, rfl, ho⟩ := h
  by_cases hpub : m = .publish j
  · subst hpub
    cases hm with
    | publish hi =>
      rw [hj] at hi
      cases hi
      cases ho
      exact .inr ⟨_, mem_publications pubs hj, rfl, rfl⟩
  · obtain ⟨d, hd, hkey, hdo⟩ := hm.owned hj ho hpub
    exact .inl ⟨j, d, hd, hkey, hdo⟩

/-- Whoever waits came while the slot was registered, so that its leader was there. -/
theorem waiting_step (h : Served pubs r) (hr : r.Sound) (hm : Step r m s) :
    ∀ i key slot, s.caller? i = some ⟨key, .waiting slot⟩ →
      (∃ j c, s.caller? j = some c ∧ c.key = key ∧ c.phase.owned? = some slot) ∨
        ∃ p ∈ pubs ++ (r.published? m).toList, p.key = key ∧ p.slot = slot := by
  have all := hm.callers (p := fun _ c => ∀ slot, c.phase = .waiting slot →
    (∃ j d, s.caller? j = some d ∧ d.key = c.key ∧ d.phase.owned? = some slot) ∨
      ∃ p ∈ pubs ++ (r.published? m).toList, p.key = c.key ∧ p.slot = slot)
    ?old ?hit ?wait ?lead ?compile ?finish ?publish ?wake
  · exact fun i key slot hc => all i _ hc slot rfl
  case old =>
    rintro i ⟨key, phase⟩ hc slot rfl
    rcases h.waiting i key slot hc with hl | ⟨p, hp, hk, hs⟩
    · exact led_step hm hl
    · exact .inr ⟨p, List.mem_append_left _ hp, hk, hs⟩
  case wait =>
    intro key other hs slot hw
    cases hw
    obtain ⟨j, hj⟩ := hr.led _ (Cache.mem_of_slot? hs)
    obtain ⟨c, hc, ho⟩ := hj.owned
    exact led_step hm ⟨j, c, hc, hj.caller hc, ho⟩
  -- Nobody else comes to wait.
  case hit => exact fun key e _ slot hw => by cases hw
  case lead => exact fun key _ _ slot hw => by cases hw
  case compile => exact fun i key other _ _ slot hw => by cases hw
  case finish => exact fun i key other attempt _ _ slot hw => by cases hw
  case publish => exact fun i key other attempt _ slot hw => by cases hw
  case wake => exact fun i key other o _ _ slot hw => by cases hw

/-- What a leader has compiled it goes on to publish. -/
theorem kept_step (h : Served pubs r) (hm : Step r m s) {e : CacheEntry τ} (he : e ∈ r.cache.entries) :
    (∃ i, s.caller? i = some ⟨e.key, .publishing e.slot (.ends (.ok e.value))⟩) ∨
      ∃ p ∈ pubs ++ (r.published? m).toList, p.key = e.key ∧ p.slot = e.slot ∧ p.attempt = .ends (.ok e.value) := by
  rcases h.stored e he with ⟨i, hi⟩ | ⟨p, hp, hrest⟩
  · obtain ⟨phase', hs, hgoes⟩ := hm.goes hi
    cases hgoes with
    | stay => exact .inl ⟨i, hs⟩
    | publish hpub =>
      subst hpub
      exact .inr ⟨_, mem_publications pubs hi, rfl, rfl, rfl⟩
  · exact .inr ⟨p, List.mem_append_left _ hp, hrest⟩

theorem stored_step (h : Served pubs r) (hm : Step r m s) :
    ∀ e ∈ s.cache.entries, (∃ i, s.caller? i = some ⟨e.key, .publishing e.slot (.ends (.ok e.value))⟩) ∨
      ∃ p ∈ pubs ++ (r.published? m).toList, p.key = e.key ∧ p.slot = e.slot ∧ p.attempt = .ends (.ok e.value) := by
  intro e he
  have kept := h.kept_step hm (e := e)
  cases hm with
  | @finish i slot key attempt hc =>
    rcases mem_complete he with he | ⟨-, rfl, rfl, ho⟩
    · exact kept he
    · refine .inl ⟨i, ?_⟩
      rw [caller?_goOn]
      show (r.caller? i).map _ = _
      rw [hc]
      cases attempt with
      | ends outcome =>
        obtain rfl : outcome = .ok e.value := ho
        rfl
      | breaksOff => cases ho
  | invalidate template => exact kept (List.mem_of_mem_filter he)
  | clear => cases he
  | _ => exact kept he

theorem step (h : Served pubs r) (hr : r.Sound) (hm : Step r m s) : Served (pubs ++ (r.published? m).toList) s where
  once := h.once_step
  below p hp := by
    refine Nat.lt_of_lt_of_le ?_ hm.next_le
    rcases List.mem_append.mp hp with hp | hp
    · exact h.below p hp
    · exact hr.owned_lt _ _ _ (published?_eq_some (Option.mem_toList.mp hp)).2 rfl
  outcomes := by
    cases hm with
    | publish hc => simp [published?_publish hc, h.outcomes, Publication.outcome, goOn]
    | _ => simpa [published?, goOn] using h.outcomes
  owned := h.owned_step hr hm
  leaders := h.leaders_step hm
  waiting := h.waiting_step hr hm
  stored := h.stored_step hm

/-- How a caller that waits has returned, or that it still waits. -/
theorem wait_step (h : Served pubs r) (hm : Step r m s) {i slot : Nat} {key : CacheKey}
    (hi : r.caller? i = some ⟨key, .waiting slot⟩) :
    s.caller? i = some ⟨key, .waiting slot⟩ ∨
      ∃ p ∈ pubs, p.key = key ∧ p.slot = slot ∧ s.caller? i = some ⟨key, .returned (.ofOutcome slot p.outcome)⟩ := by
  obtain ⟨phase', hs, hgoes⟩ := hm.goes hi
  cases hgoes with
  | stay => exact .inl hs
  | wake ho =>
    obtain ⟨p, hp, hslot, rfl⟩ := h.mem_outcomes ho
    rcases h.waiting i key slot hi with ⟨j, c, hj, -, hown⟩ | ⟨p', hp', hkey, hslot'⟩
    · exact absurd hslot (h.owned j c hj slot hown p hp)
    · obtain rfl := h.unique hp hp' (hslot'.trans hslot.symm)
      exact .inr ⟨p', hp', hkey, hslot', hs⟩

end Served

theorem served (hr : ({} : Race τ).run? ms = some r) : Served (({} : Race τ).publications ms) r := by
  refine run?_induction (r := ({} : Race τ)) (p := fun ms r => Served (({} : Race τ).publications ms) r) .empty ?_ ms r hr
  intro ms r m s hr h hm
  have := h.step (Reachable.sound ⟨ms, hr⟩) (step_of_move? hm)
  rwa [publications, ← along_snoc _ hr m] at this

/-- A caller that waits at some time waits on, or has returned with what was published for its slot. -/
theorem waited {before after : List (Move τ)} (hq : ({} : Race τ).run? before = some q) (hr : q.run? after = some r)
    {i slot : Nat} {key : CacheKey} (hi : q.caller? i = some ⟨key, .waiting slot⟩) :
    r.caller? i = some ⟨key, .waiting slot⟩ ∨
      ∃ p ∈ ({} : Race τ).publications (before ++ after), p.key = key ∧ p.slot = slot ∧
        r.caller? i = some ⟨key, .returned (.ofOutcome slot p.outcome)⟩ := by
  refine run?_induction (r := q) (p := fun after r => r.caller? i = some ⟨key, .waiting slot⟩ ∨
      ∃ p ∈ ({} : Race τ).publications (before ++ after), p.key = key ∧ p.slot = slot ∧
        r.caller? i = some ⟨key, .returned (.ofOutcome slot p.outcome)⟩) (.inl hi) ?_ after r hr
  intro after r m s hr h hm
  have hall : ({} : Race τ).run? (before ++ after) = some r := (run?_append_eq_some hq).mpr hr
  have later : ∀ p ∈ ({} : Race τ).publications (before ++ after),
      p ∈ ({} : Race τ).publications (before ++ (after ++ [m])) := by
    intro p hp
    rw [← List.append_assoc, publications, along_snoc _ hall]
    exact List.mem_append_left _ hp
  rcases h with h | ⟨p, hp, hkey, hslot, h⟩
  · rcases (served hall).wait_step (step_of_move? hm) h with h | ⟨p, hp, h⟩
    · exact .inl h
    · exact .inr ⟨p, later p hp, h⟩
  · exact .inr ⟨p, later p hp, hkey, hslot, (step_of_move? hm).returned h⟩

/-! ### The property -/

/-- In every race that can come, a caller that waits for a slot has its outcome at hand, or else exactly one caller leads
the compilation for the slot and has yet to publish its outcome. A caller that waited for a slot and has returned got
what the slot's leader published, and nothing else was published for the slot, whatever was invalidated or cleared
meanwhile: the leader's own result or error, or, if its compilation broke off, the error that names the template. What
is stored is a success of its slot's leader, and the end of any other compilation stores nothing. -/
theorem waiters_served (hr : ({} : Race τ).run? ms = some r) :
    (∀ i key slot, r.caller? i = some ⟨key, .waiting slot⟩ →
      (∃ o, r.outcome? slot = some o) ∨
        ∃ j phase, r.caller? j = some ⟨key, phase⟩ ∧ phase.owned? = some slot ∧
          ∀ k d, r.caller? k = some d → d.phase.owned? = some slot → k = j) ∧
    (∀ before after q i key slot c, ms = before ++ after → ({} : Race τ).run? before = some q →
      q.caller? i = some ⟨key, .waiting slot⟩ → r.caller? i = some c → c.phase ≠ .waiting slot →
      ∃ p ∈ ({} : Race τ).publications ms, p.key = key ∧ p.slot = slot ∧
        (∀ p' ∈ ({} : Race τ).publications ms, p'.slot = slot → p' = p) ∧
        (∀ o, p.attempt = .ends o → c = ⟨key, .returned (.ofOutcome slot o)⟩ ∧ r.caller? p.leader = some c) ∧
        (p.attempt = .breaksOff → c = ⟨key, .returned (.failed (.ofCause key.template .compilationAborted))⟩ ∧
          r.caller? p.leader = some ⟨key, .returned .brokeOff⟩)) ∧
    (∀ e ∈ r.cache.entries,
      (∃ i, r.caller? i = some ⟨e.key, .publishing e.slot (.ends (.ok e.value))⟩) ∨
        ∃ p ∈ ({} : Race τ).publications ms, p.key = e.key ∧ p.slot = e.slot ∧ p.attempt = .ends (.ok e.value)) ∧
    (∀ i attempt s, r.move? (.finish i attempt) = some s → (∀ value, attempt ≠ .ends (.ok value)) →
      s.cache.entries = r.cache.entries) := by
  have h := served hr
  have hsound : r.Sound := Reachable.sound ⟨ms, hr⟩
  refine ⟨fun i key slot hi => ?_, ?_, h.stored, fun i attempt s hm hfail => ?_⟩
  · -- A caller waits for one that owns the slot, or the outcome is published and it may go on.
    rcases h.waiting i key slot hi with ⟨j, c, hj, rfl, ho⟩ | ⟨p, hp, -, rfl⟩
    · exact .inr ⟨j, c.phase, hj, ho, fun k d hd hdo => hsound.owner k j d c slot hd hj hdo ho⟩
    · exact .inl ⟨p.outcome, h.outcome? hp⟩
  · rintro before after q i key slot c rfl hq hi hc hw
    -- Who waited at some point waits still, or returned with what was published for the slot.
    rcases waited hq ((run?_append_eq_some hq).mp hr) hi with hstill | ⟨p, hp, rfl, rfl, hback⟩
    · rw [hc] at hstill
      cases hstill
      exact absurd rfl hw
    · rw [hc] at hback
      cases hback
      have hleader := h.leaders p hp
      refine ⟨p, hp, rfl, rfl, fun p' hp' hs => h.unique hp hp' hs, fun o ho => ?_, fun ho => ?_⟩
      · rw [ho] at hleader
        rw [Publication.outcome, ho]
        exact ⟨rfl, hleader⟩
      · rw [ho] at hleader
        rw [Publication.outcome, ho]
        exact ⟨rfl, hleader⟩
  · cases step_of_move? hm with
    | @finish i slot key attempt hc =>
      -- An attempt without a value completes its slot without an entry.
      have hout : ∀ value, attempt.outcome key ≠ .ok value := by
        intro value ho
        cases attempt with
        | ends outcome => exact hfail value (congrArg Attempt.ends ho)
        | breaksOff => cases ho
      show (r.cache.complete key slot (attempt.outcome key)).entries = _
      rcases Cache.complete_cases r.cache key slot (attempt.outcome key) with ⟨-, value, ho, -⟩ | ⟨-, -, heq⟩ | ⟨-, heq⟩
      · exact absurd ho (hout value)
      · rw [heq]
      · rw [heq]

/-- The compilation of a page breaks off after the page was invalidated: the caller that waited for it is told so, and
nothing is stored. -/
theorem waiters_served_brokenOff :
    let page : CacheKey := ⟨"page", "dynamic"⟩
    let before : List (Move Nat) := [.arrive page, .compile 0, .arrive page]
    let after : List (Move Nat) := [.invalidate "page", .finish 0 .breaksOff, .publish 0, .wake 1]
    ∃ q r, ({} : Race Nat).run? before = some q ∧ q.caller? 1 = some ⟨page, .waiting 0⟩ ∧
      ({} : Race Nat).run? (before ++ after) = some r ∧
      r.caller? 1 = some ⟨page, .returned (.failed (.ofCause "page" .compilationAborted))⟩ ∧
      ∃ p ∈ ({} : Race Nat).publications (before ++ after), p.slot = 0 ∧ p.attempt = .breaksOff := by
  intro page before after
  obtain ⟨q, hq, hi⟩ : ∃ q, ({} : Race Nat).run? before = some q ∧ q.caller? 1 = some ⟨page, .waiting 0⟩ := ⟨_, rfl, rfl⟩
  obtain ⟨r, hr, hc⟩ : ∃ r, ({} : Race Nat).run? (before ++ after) = some r ∧
      r.caller? 1 = some ⟨page, .returned (.failed (.ofCause "page" .compilationAborted))⟩ := ⟨_, rfl, rfl⟩
  obtain ⟨p, hp, -, hslot, -, hends, -⟩ :=
    (waiters_served hr).2.1 before after q 1 page 0 _ rfl hq hi hc (by simp)
  refine ⟨q, r, hq, hi, hr, hc, p, hp, hslot, ?_⟩
  cases hattempt : p.attempt with
  | breaksOff => rfl
  | ends o =>
    -- A leader whose compilation ended would have returned with what the waiting caller got.
    obtain ⟨hback, -⟩ := hends o hattempt
    have hpublications : ({} : Race Nat).publications (before ++ after) = [⟨0, page, 0, .breaksOff⟩] := rfl
    rw [hpublications, List.mem_singleton] at hp
    rw [hp] at hattempt
    cases hattempt

end Race

end Stencil
