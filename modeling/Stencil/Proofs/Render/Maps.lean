import Stencil.Proofs.Render.Nested

/-! Contexts as stacks of maps.

A context keeps its definitions twice: each frame lists the names that it defines, and each name has its entries, latest
first. The two agree in every context that a run passes through, so that a frame is a map from names to actions. A lookup
searches these maps from the top, past what the innermost ceiling hides, and a definition goes into the map on top. -/

namespace Stencil

variable {α : Type}

namespace Context

/-! ### Frames as maps -/

/-- The frame with a number lists the name. -/
def Records (c : Context α) (i : Nat) (name : String) : Prop := ∃ names, c.frame? i = some names ∧ name ∈ names

/-- The action that the frame with a number gives to a name. -/
def definition? (c : Context α) (i : Nat) (name : String) : Option α :=
  ((c.entries name).find? (·.frame == i)).map (·.action)

/-- The frame is the greatest one that defines the name and is not hidden. -/
structure Latest (c : Context α) (name : String) (i : Nat) : Prop where
  records : c.Records i name
  shown : c.shows i = true
  greatest : ∀ j, c.Records j name → c.shows j = true → j ≤ i

/-- What the frames list and the entries of the names agree. -/
structure Stacked (c : Context α) : Prop where
  frames : c.frames ≠ []
  /-- No name without entries is kept. -/
  filled : ∀ n es, (n, es) ∈ c.sections → es ≠ []
  /-- The frames of a name's entries strictly increase up to the latest entry, which comes first. -/
  increasing : ∀ n es, (n, es) ∈ c.sections → es.Pairwise fun later earlier => earlier.frame < later.frame
  below : ∀ n es, (n, es) ∈ c.sections → ∀ e ∈ es, e.frame < c.depth
  /-- A frame lists a name if the name has exactly one entry of the frame. -/
  records : ∀ i n, c.Records i n ↔ (c.entries n).countP (·.frame == i) = 1

/-! ### Entries of a name -/

theorem entries_eq_nil_or_mem (c : Context α) (n : String) : c.entries n = [] ∨ (n, c.entries n) ∈ c.sections := by
  rcases hfind : c.sections.find? (·.1 == n) with _ | ⟨m, es⟩
  · exact .inl (by rw [entries, hfind]; rfl)
  · obtain rfl : m = n := by simpa using List.find?_some hfind
    have hentries : c.entries m = es := by rw [entries, hfind]; rfl
    exact .inr (hentries ▸ List.mem_of_find?_eq_some hfind)

/-- In order, a name has its entries in one place. -/
theorem entries_of_mem {c : Context α} (hc : c.Ordered) {n : String} {es : List (Entry α)} (h : (n, es) ∈ c.sections) :
    c.entries n = es := by
  unfold Ordered at hc
  unfold entries
  generalize c.sections = sections at hc h
  induction sections with
  | nil => cases h
  | cons s rest ih =>
    obtain ⟨m, ds⟩ := s
    obtain ⟨hm, hrest⟩ := List.pairwise_cons.mp hc
    rcases List.mem_cons.mp h with h | h
    · cases h
      simp
    · have hne : m ≠ n := fun heq => String.lt_irrefl n (heq ▸ hm (n, es) h)
      rw [List.find?_cons_of_neg (by simpa using hne)]
      exact ih hrest h

/-- Among entries of distinct frames, latest first, an entry is found by its frame. -/
theorem find?_frame {es : List (Entry α)} (h : es.Pairwise fun later earlier => earlier.frame < later.frame) {e : Entry α}
    (he : e ∈ es) : es.find? (·.frame == e.frame) = some e := by
  induction es with
  | nil => cases he
  | cons d es ih =>
    obtain ⟨hd, hes⟩ := List.pairwise_cons.mp h
    rcases List.mem_cons.mp he with rfl | he
    · simp
    · rw [List.find?_cons_of_neg (by simpa using Nat.ne_of_gt (hd e he))]
      exact ih hes he

theorem countP_frame {es : List (Entry α)} (h : es.Pairwise fun later earlier => earlier.frame < later.frame) {i : Nat} :
    es.countP (·.frame == i) = 1 ↔ ∃ e ∈ es, e.frame = i := by
  constructor
  · intro hone
    obtain ⟨e, he, hframe⟩ := List.countP_pos_iff.mp (hone ▸ Nat.one_pos)
    exact ⟨e, he, by simpa using hframe⟩
  · rintro ⟨e, he, rfl⟩
    induction es with
    | nil => cases he
    | cons d es ih =>
      obtain ⟨hd, hes⟩ := List.pairwise_cons.mp h
      rcases List.mem_cons.mp he with rfl | he
      · have hrest : es.countP (·.frame == e.frame) = 0 :=
          List.countP_eq_zero.mpr fun b hb => by simpa using Nat.ne_of_lt (hd b hb)
        rw [List.countP_cons_of_pos (p := fun b : Entry α => b.frame == e.frame) (beq_self_eq_true _), hrest]
      · rw [List.countP_cons_of_neg (by simpa using Nat.ne_of_gt (hd e he)), ih hes he]

/-- Among entries with the latest first, a search finds the latest of those that it looks for. -/
theorem find?_latest {es : List (Entry α)} (h : es.Pairwise fun later earlier => earlier.frame < later.frame)
    {p : Entry α → Bool} {e : Entry α} :
    es.find? p = some e ↔ e ∈ es ∧ p e = true ∧ ∀ d ∈ es, p d = true → d.frame ≤ e.frame := by
  induction es with
  | nil => simp
  | cons d es ih =>
    obtain ⟨hd, hes⟩ := List.pairwise_cons.mp h
    cases hp : p d with
    | true =>
      rw [List.find?_cons_of_pos hp]
      constructor
      · rintro ⟨⟩
        -- The first entry is from the highest frame of all.
        refine ⟨List.mem_cons_self, hp, fun b hb _ => ?_⟩
        rcases List.mem_cons.mp hb with rfl | hb
        · exact Nat.le_refl _
        · exact Nat.le_of_lt (hd b hb)
      · rintro ⟨he, -, hgreatest⟩
        rcases List.mem_cons.mp he with rfl | he
        · rfl
        · exact absurd (hgreatest d List.mem_cons_self hp) (Nat.not_le.mpr (hd e he))
    | false =>
      rw [List.find?_cons_of_neg (by simp [hp]), ih hes]
      constructor
      · rintro ⟨he, hpe, hgreatest⟩
        refine ⟨List.mem_cons_of_mem _ he, hpe, fun b hb hpb => ?_⟩
        rcases List.mem_cons.mp hb with rfl | hb
        · rw [hp] at hpb
          cases hpb
        · exact hgreatest b hb hpb
      · rintro ⟨he, hpe, hgreatest⟩
        rcases List.mem_cons.mp he with rfl | he
        · rw [hp] at hpe
          cases hpe
        · exact ⟨he, hpe, fun b hb => hgreatest b (List.mem_cons_of_mem _ hb)⟩

theorem entries_congr {c d : Context α} (h : d.sections = c.sections) (n : String) : d.entries n = c.entries n := by
  rw [entries, h, entries]

theorem definition?_congr {c d : Context α} (h : d.sections = c.sections) (i : Nat) (n : String) :
    d.definition? i n = c.definition? i n := by
  rw [definition?, entries_congr h, definition?]

theorem define_eq_error_iff {c : Context α} {name : String} {a : α} :
    (∃ cause, c.define name a = .error cause) ↔ Text.allBlank name.toList = true ∨ name ∈ c.top := by
  constructor
  · rintro ⟨cause, h⟩
    exact (define_error h).imp And.left And.left
  · rintro (hblank | htop)
    · exact ⟨.invalidSectionName, if_pos hblank⟩
    · unfold define
      split
      · exact ⟨_, rfl⟩
      · exact ⟨_, if_pos (List.contains_iff_mem.mpr htop)⟩

/-! ### Contexts with both in step -/

/-- The same as `Stacked`, in the form in which operations keep it: the entries of a name are those of distinct frames,
latest first, and these are the frames that list the name. -/
structure Aligned (c : Context α) : Prop where
  layered : c.Layered
  ordered : c.Ordered
  increasing : ∀ n, (c.entries n).Pairwise fun later earlier => earlier.frame < later.frame
  listed : ∀ i n, c.Records i n → ∃ e ∈ c.entries n, e.frame = i

theorem records_congr {c d : Context α} (h : d.frames = c.frames) {i : Nat} {n : String} :
    d.Records i n ↔ c.Records i n := by
  unfold Records frame?
  rw [h]

theorem Records.lt {c : Context α} {i : Nat} {n : String} (h : c.Records i n) : i < c.depth := by
  obtain ⟨_, hframe, -⟩ := h
  exact frame?_eq_some_lt hframe

/-- The top frame lists what `define` looks for. -/
theorem records_top {c : Context α} (h : c.frames ≠ []) {n : String} : c.Records (c.depth - 1) n ↔ n ∈ c.top := by
  obtain ⟨names, older, hframes⟩ := List.exists_cons_of_ne_nil h
  have htop : c.frame? (c.depth - 1) = some names := by
    rw [depth, hframes]
    exact frame?_top hframes
  rw [Records, htop, top, hframes]
  simp

/-- What is done in a new frame finds it empty, and the frames below it as they were. -/
theorem records_pushFrame {c : Context α} {i : Nat} {n : String} : c.pushFrame.Records i n ↔ c.Records i n := by
  constructor
  · rintro ⟨names, hframe, hn⟩
    rcases Nat.lt_or_eq_of_le (Nat.le_of_lt_succ (frame?_eq_some_lt hframe)) with hlt | rfl
    · exact ⟨names, (frame?_below (c := c.pushFrame) rfl hlt).symm.trans hframe, hn⟩
    · rw [frame?_top (c := c.pushFrame) rfl] at hframe
      cases hframe
      cases hn
  · rintro ⟨names, hframe, hn⟩
    exact ⟨names, (frame?_below (c := c.pushFrame) rfl (frame?_eq_some_lt hframe)).trans hframe, hn⟩

/-- A definition is listed in the frame on top, and nothing else changes in the lists. -/
theorem records_define {c d : Context α} (hc : c.frames ≠ []) {name : String} {a : α} (h : c.define name a = .ok d) {i : Nat}
    {n : String} : d.Records i n ↔ c.Records i n ∨ i = c.depth - 1 ∧ n = name := by
  obtain ⟨names, older, hframes⟩ := List.exists_cons_of_ne_nil hc
  have htop : c.depth - 1 = older.length := by rw [depth, hframes]; rfl
  have hd : d.frames = Text.insertSorted name names :: older := by
    rw [define_eq h, hframes]
    rfl
  unfold Records
  rcases Nat.lt_trichotomy i older.length with hlt | rfl | hgt
  · rw [frame?_below hd hlt, frame?_below hframes hlt, htop]
    simp [Nat.ne_of_lt hlt]
  · rw [frame?_top hd, frame?_top hframes, htop]
    simp [Text.mem_insertSorted, or_comm]
  · have hnone : ∀ {b : Context α} {ns : List String}, b.frames = ns :: older → b.frame? i = none := by
      intro b ns hb
      refine List.getElem?_eq_none ?_
      rw [List.length_reverse, hb]
      exact hgt
    rw [hnone hd, hnone hframes, htop]
    simp [Nat.ne_of_gt hgt]

namespace Aligned

variable {c d : Context α}

theorem recorded (h : c.Aligned) {n : String} {e : Entry α} (he : e ∈ c.entries n) : c.Records e.frame n := by
  rcases c.entries_eq_nil_or_mem n with hnil | hmem
  · rw [hnil] at he
    cases he
  · exact h.layered.recorded n _ hmem e he

theorem start : ({} : Context α).Aligned where
  layered := .start
  ordered := .nil
  increasing _ := .nil
  listed i n h := by
    obtain ⟨names, hframe, hn⟩ := h
    obtain rfl : i = 0 := Nat.lt_one_iff.mp (frame?_eq_some_lt hframe)
    cases hframe
    cases hn

/-- Outputs to wrap and ceilings do not matter. -/
theorem congr (h : c.Aligned) (hframes : d.frames = c.frames) (hsections : d.sections = c.sections) : d.Aligned where
  layered := h.layered.congr hframes hsections
  ordered := by
    unfold Ordered
    rw [hsections]
    exact h.ordered
  increasing n := entries_congr hsections n ▸ h.increasing n
  listed i n hr := entries_congr hsections n ▸ h.listed i n ((records_congr hframes).mp hr)

theorem pushFrame (h : c.Aligned) : c.pushFrame.Aligned where
  layered := h.layered.pushFrame
  ordered := h.ordered
  increasing := h.increasing
  listed i n hr := h.listed i n (records_pushFrame.mp hr)

/-- A new definition comes on top of the entries of its name: those have frames further down, as the top frame did not list
the name. -/
theorem define (h : c.Aligned) {name : String} {a : α} (hd : c.define name a = .ok d) : d.Aligned where
  layered := (Grows.define h.layered hd).layered
  ordered := by
    rw [Ordered, define_eq hd]
    exact addEntry_ordered h.ordered _ _
  increasing n := by
    rw [entries_define h.ordered hd]
    split
    · rename_i hname
      subst hname
      refine List.pairwise_cons.mpr ⟨fun e he => ?_, h.increasing name⟩
      have hr := h.recorded he
      -- An entry of the top frame under the name would have made the definition fail.
      rcases Nat.lt_or_eq_of_le (Nat.le_sub_one_of_lt hr.lt) with hlt | htop
      · exact hlt
      · rw [htop] at hr
        obtain ⟨_, herror⟩ := (define_eq_error_iff (a := a)).mpr (.inr ((records_top h.layered.frames).mp hr))
        rw [hd] at herror
        cases herror
    · exact h.increasing n
  listed i n hr := by
    rw [entries_define h.ordered hd]
    rcases (records_define h.layered.frames hd).mp hr with hr | ⟨rfl, rfl⟩
    · obtain ⟨e, he, hframe⟩ := h.listed i n hr
      exact ⟨e, List.mem_append_right _ he, hframe⟩
    · rw [if_pos rfl]
      exact ⟨_, List.mem_cons_self, rfl⟩

/-- A frame gives an action to a name if the name has an entry of the frame with it. -/
theorem definition?_eq_some (h : c.Aligned) {i : Nat} {n : String} {a : α} :
    c.definition? i n = some a ↔ ⟨i, a⟩ ∈ c.entries n := by
  constructor
  · intro hdef
    obtain ⟨e, he, rfl⟩ := Option.map_eq_some_iff.mp hdef
    obtain rfl : e.frame = i := by simpa using List.find?_some he
    exact List.mem_of_find?_eq_some he
  · intro he
    rw [definition?, find?_frame (h.increasing n) he]
    rfl

theorem records_iff (h : c.Aligned) {i : Nat} {n : String} : c.Records i n ↔ ∃ a, c.definition? i n = some a := by
  constructor
  · intro hr
    obtain ⟨⟨i, a⟩, he, rfl⟩ := h.listed i n hr
    exact ⟨a, h.definition?_eq_some.mpr he⟩
  · rintro ⟨a, hdef⟩
    exact h.recorded (h.definition?_eq_some.mp hdef)

theorem stacked (h : c.Aligned) : c.Stacked where
  frames := h.layered.frames
  filled := h.layered.filled
  increasing n es hmem := entries_of_mem h.ordered hmem ▸ h.increasing n
  below _ _ hmem _ he := h.layered.below hmem he
  records i n := by
    rw [countP_frame (h.increasing n)]
    refine ⟨h.listed i n, ?_⟩
    rintro ⟨e, he, rfl⟩
    exact h.recorded he

/-- A lookup finds the definition in the greatest frame that defines the name and is not hidden. -/
theorem action?_eq_some (h : c.Aligned) {n : String} {a : α} :
    c.action? n = some a ↔ ∃ i, c.Latest n i ∧ c.definition? i n = some a := by
  constructor
  · intro ha
    obtain ⟨e, hvisible, rfl⟩ := Option.map_eq_some_iff.mp ha
    obtain ⟨he, hshown, hgreatest⟩ := (find?_latest (h.increasing n)).mp hvisible
    refine ⟨e.frame, ⟨h.recorded he, hshown, fun j hj hshows => ?_⟩, h.definition?_eq_some.mpr he⟩
    obtain ⟨d, hd, rfl⟩ := h.listed j n hj
    exact hgreatest d hd hshows
  · rintro ⟨i, ⟨-, hshown, hgreatest⟩, hdef⟩
    have hvisible : c.visibleEntry? n = some ⟨i, a⟩ :=
      (find?_latest (h.increasing n)).mpr
        ⟨h.definition?_eq_some.mp hdef, hshown, fun d hd => hgreatest d.frame (h.recorded hd)⟩
    rw [action?, hvisible]
    rfl

/-- A definition changes the map on top, at its name. -/
theorem definition?_define (h : c.Aligned) {name : String} {a : α} (hd : c.define name a = .ok d) (i : Nat) (n : String) :
    d.definition? i n = if i = c.depth - 1 ∧ n = name then some a else c.definition? i n := by
  rw [definition?, entries_define h.ordered hd]
  by_cases hname : name = n
  · by_cases htop : c.depth - 1 = i
    · simp [hname, htop]
    · rw [if_pos hname, List.singleton_append, List.find?_cons_of_neg (by simpa using htop), if_neg fun hi => htop hi.1.symm]
      rfl
  · rw [if_neg hname, List.nil_append, if_neg fun hi => hname hi.2.symm]
    rfl

end Aligned

/-- Every frame of the earlier context gives the names the actions that it gave them. -/
def Extends (c d : Context α) : Prop := ∀ i n a, c.definition? i n = some a → d.definition? i n = some a

theorem Extends.of_sections {c d : Context α} (h : d.sections = c.sections) : c.Extends d := fun i n _ hdef =>
  (definition?_congr h i n).trans hdef

theorem Extends.define {c d : Context α} (hc : c.Aligned) {name : String} {a : α} (h : c.define name a = .ok d) :
    c.Extends d := by
  intro i n b hdef
  rw [hc.definition?_define h]
  split
  · rename_i htop
    obtain ⟨rfl, rfl⟩ := htop
    have hrecords : n ∈ c.top := (records_top hc.layered.frames).mp (hc.records_iff.mpr ⟨b, hdef⟩)
    obtain ⟨_, herror⟩ := (define_eq_error_iff (a := a)).mpr (.inr hrecords)
    rw [h] at herror
    cases herror
  · exact hdef

end Context

/-! ### Runs -/

namespace Step

variable [DecidableEq α]

mutual

/-- An operation keeps lists and entries in step, and the definitions of all frames. -/
theorem run_aligned : (s : Step α) → ∀ c : Context α, c.Aligned → (s.run c).2.Aligned ∧ c.Extends (s.run c).2
  | .define name a, c, hc => by
    cases hd : c.define name a with
    | ok d =>
      rw [run_define_ok hd]
      exact ⟨hc.define hd, .define hc hd⟩
    | error _ =>
      rw [run_define_error hd]
      exact ⟨hc, .of_sections rfl⟩
  | .lookup _, _, hc | .body, _, hc | .depth, _, hc => ⟨hc, .of_sections rfl⟩
  | .push _, _, hc => ⟨hc.congr rfl rfl, .of_sections rfl⟩
  | .pop, c, hc => by
    rw [run_pop]
    exact ⟨hc.congr rfl rfl, .of_sections rfl⟩
  | .nested inner breaksOff, c, hc => by
    -- What the inner steps did above the frame is undone when it is left.
    rw [run_nested, (runAll_grows inner c.pushFrame hc.layered.pushFrame).restore_eq hc.layered]
    exact ⟨hc.congr rfl rfl, .of_sections rfl⟩
  | .render name inner breaksOff, c, hc => by
    cases he : c.visibleEntry? name with
    | none =>
      rw [run_render_none he]
      exact ⟨hc, .of_sections rfl⟩
    | some e =>
      rw [run_render_some he]
      obtain ⟨haligned, hextends⟩ := runAll_aligned inner (c.hide e.frame) (hc.congr rfl rfl)
      exact ⟨haligned.congr rfl rfl, hextends⟩

theorem runAll_aligned : (steps : List (Step α)) → ∀ c : Context α, c.Aligned →
    (runAll c steps).2.Aligned ∧ c.Extends (runAll c steps).2
  | [], _, hc => ⟨hc, .of_sections rfl⟩
  | s :: steps, c, hc =>
    have hs := run_aligned s c hc
    have hsteps := runAll_aligned steps (s.run c).2 hs.1
    ⟨hsteps.1, fun i n a hdef => hsteps.2 i n a (hs.2 i n a hdef)⟩

end

theorem Passes.aligned {c p : Context α} {steps : List (Step α)} {rendering : List (Entry α)}
    (h : Passes c steps rendering p) (hc : c.Aligned) : p.Aligned := by
  induction h with
  | here => exact hc
  | later _ ih => exact ih (run_aligned _ _ hc).1
  | nested _ ih => exact ih hc.pushFrame
  | render _ _ ih => exact ih (hc.congr rfl rfl)

end Step

namespace Context

variable [DecidableEq α] {c : Context α}

theorem Reachable.aligned (h : c.Reachable) : c.Aligned := by
  obtain ⟨_, _, h⟩ := h
  exact h.aligned .start

/-- In every context that a run passes through, lists and entries agree. So a lookup finds the definition in the greatest
frame that defines the name and is not hidden. A definition fails only without a name or if the frame on top has the name,
and then changes nothing; otherwise it goes into the map on top. Every operation keeps what the frames define, and a new
frame defines nothing. -/
theorem reachable_stack_of_maps (hc : c.Reachable) :
    c.Stacked ∧
    (∀ n a, c.action? n = some a ↔ ∃ i, c.Latest n i ∧ c.definition? i n = some a) ∧
    (∀ n a, (∃ cause, c.define n a = .error cause) ↔ Text.allBlank n.toList = true ∨ c.Records (c.depth - 1) n) ∧
    (∀ n a cause, c.define n a = .error cause → ((Step.define n a).run c).2 = c) ∧
    (∀ n a d, c.define n a = .ok d → ∀ i m,
      d.definition? i m = if i = c.depth - 1 ∧ m = n then some a else c.definition? i m) ∧
    (∀ s : Step α, c.Extends (s.run c).2) ∧
    ∀ n, c.pushFrame.definition? c.depth n = none := by
  have haligned := hc.aligned
  refine ⟨haligned.stacked, fun n a => haligned.action?_eq_some, fun n a => ?_, fun n a cause => Step.run_define_error,
    fun n a d => haligned.definition?_define, fun s => (Step.run_aligned s c haligned).2, fun n => ?_⟩
  · rw [define_eq_error_iff, records_top haligned.layered.frames]
  · rw [Option.eq_none_iff_forall_ne_some]
    intro a hdef
    have hrecords : c.Records c.depth n := records_pushFrame.mp (haligned.pushFrame.records_iff.mpr ⟨a, hdef⟩)
    exact Nat.lt_irrefl _ hrecords.lt

/-- Within a section that renders in a nested frame, the name stands for what the outer frame defines. -/
theorem reachable_within_section :
    let c : Context String :=
      { frames := [["Foot"], ["Foot"]], sections := [("Foot", [⟨1, "inner"⟩, ⟨0, "outer"⟩])], ceilings := [⟨1, 2⟩] }
    c.Reachable ∧ c.Stacked ∧ c.Latest "Foot" 0 ∧ c.action? "Foot" = some "outer" ∧
      ∃ cause, c.define "Foot" "again" = .error cause := by
  intro c
  have hreachable : c.Reachable :=
    ⟨[.define "Foot" "outer", .nested [.define "Foot" "inner", .render "Foot" [] false] false], [⟨1, "inner"⟩],
      .later (.nested (.later (.render rfl .here)))⟩
  obtain ⟨hstacked, hfound, hfails, -⟩ := reachable_stack_of_maps hreachable
  have houter : c.action? "Foot" = some "outer" := by decide
  obtain ⟨i, hlatest, hdef⟩ := (hfound "Foot" "outer").mp houter
  have hzero : i = 0 := by
    have hlt : i < 2 := hlatest.records.lt
    rcases Nat.lt_or_ge i 1 with hi | hi
    · exact Nat.lt_one_iff.mp hi
    · obtain rfl : i = 1 := Nat.le_antisymm (Nat.le_of_lt_succ hlt) hi
      cases hlatest.shown
  refine ⟨hreachable, hstacked, hzero ▸ hlatest, houter, (hfails "Foot" "again").mpr (.inr ⟨["Foot"], rfl, ?_⟩)⟩
  exact List.mem_singleton_self _

end Context

end Stencil
