import Stencil.Proofs.Render.Tracing

/-! Which sections the code of a template sees.

The templates of a page run one after the other, each in a frame above those of the templates before it. So the entries of
a name are those that the last template has registered, then those of the one before it, and so on down to the page. A
template sees them all; a section sees those of the templates before its own, and as long as sections register nothing
themselves, it leaves everything as it was. -/

namespace Stencil

variable {σ α β : Type}

/-! ### Definitions by template -/

/-- The entries of a name, given the sections that each template has registered, the last template first. -/
def definitions (name : String) : List (List Action) → List (Entry Action)
  | [] => []
  | own :: earlier => (own.filter (·.name == name)).map (⟨earlier.length + 1, ·⟩) ++ definitions name earlier

/-- The latest section with a name, and the sections that the templates before its own have registered. -/
def latest? (name : String) : List (List Action) → Option (Action × List (List Action))
  | [] => none
  | own :: earlier => ((own.find? (·.name == name)).map (·, earlier)).or (latest? name earlier)

theorem mem_definitions {name : String} {seen : List (List Action)} {e : Entry Action} (h : e ∈ definitions name seen) :
    e.frame ≤ seen.length ∧ ∃ own ∈ seen, e.action ∈ own := by
  induction seen with
  | nil => cases h
  | cons own earlier ih =>
    rcases List.mem_append.mp h with h | h
    · obtain ⟨a, ha, rfl⟩ := List.mem_map.mp h
      exact ⟨Nat.le_refl _, own, List.mem_cons_self, (List.mem_filter.mp ha).1⟩
    · obtain ⟨hframe, as, has, ha⟩ := ih h
      exact ⟨Nat.le_succ_of_le hframe, as, List.mem_cons_of_mem _ has, ha⟩

theorem latest?_eq_some {name : String} {seen before : List (List Action)} {a : Action}
    (h : latest? name seen = some (a, before)) : a.name = name ∧ ∃ newer own, seen = newer ++ own :: before ∧ a ∈ own := by
  induction seen with
  | nil => cases h
  | cons own earlier ih =>
    rw [latest?] at h
    cases hown : own.find? (·.name == name) with
    | some b =>
      rw [hown] at h
      cases h
      exact ⟨by simpa using List.find?_some hown, [], own, rfl, List.mem_of_find?_eq_some hown⟩
    | none =>
      rw [hown] at h
      obtain ⟨hname, newer, as, rfl, ha⟩ := ih h
      exact ⟨hname, own :: newer, as, rfl, ha⟩

/-- The first entry of a name is its latest section. -/
theorem head?_definitions (name : String) (seen : List (List Action)) :
    (definitions name seen).head? = (latest? name seen).map fun (a, before) => ⟨before.length + 1, a⟩ := by
  induction seen with
  | nil => rfl
  | cons own earlier ih =>
    rw [definitions, latest?, List.head?_append, List.head?_map, List.head?_filter, ih]
    cases own.find? (·.name == name) <;> rfl

/-- Among all entries of a name, the first one from certain templates on is the latest section that these see. -/
theorem find?_definitions (name : String) (newer seen : List (List Action)) {shows : Nat → Bool}
    (h : ∀ frame ≤ (newer ++ seen).length, shows frame = decide (frame ≤ seen.length)) :
    (definitions name (newer ++ seen)).find? (fun e => shows e.frame) =
      (latest? name seen).map fun (a, before) => ⟨before.length + 1, a⟩ := by
  induction newer with
  | nil =>
    rw [List.nil_append] at h ⊢
    rw [← head?_definitions]
    cases hd : definitions name seen with
    | nil => rfl
    | cons e es =>
      have hframe := (mem_definitions (hd ▸ List.mem_cons_self : e ∈ definitions name seen)).1
      have hshows : shows e.frame = true := by rw [h _ hframe, decide_eq_true hframe]
      rw [List.head?_cons, List.find?_cons_of_pos (by exact hshows)]
  | cons own newer ih =>
    -- The frame of the newest definitions is above those that are shown, so these are passed over.
    have hhidden : shows ((newer ++ seen).length + 1) = false := by
      refine (h _ (Nat.le_refl _)).trans (decide_eq_false ?_)
      rw [List.length_append, List.length_cons]
      omega
    rw [List.cons_append, definitions, List.find?_append, ih fun frame hf => h frame (Nat.le_succ_of_le hf)]
    have hnone : ((own.filter (·.name == name)).map (Entry.mk ((newer ++ seen).length + 1))).find?
        (fun e => shows e.frame) = none := by
      rw [List.find?_eq_none]
      intro e he
      obtain ⟨a, -, rfl⟩ := List.mem_map.mp he
      exact Bool.eq_false_iff.mp hhidden
    rw [hnone, Option.none_or]

/-! ### Entries -/

namespace Context

/-- The names of the sections are in increasing order. -/
def Ordered (c : Context α) : Prop := c.sections.Pairwise (·.1 < ·.1)

theorem addEntry_ordered {sections : List (String × List (Entry α))} (h : sections.Pairwise (·.1 < ·.1)) (name : String)
    (e : Entry α) : (addEntry name e sections).Pairwise (·.1 < ·.1) := by
  induction sections with
  | nil => exact List.pairwise_singleton _ _
  | cons s rest ih =>
    obtain ⟨n, es⟩ := s
    obtain ⟨hn, hrest⟩ := List.pairwise_cons.mp h
    rw [addEntry]
    split
    · rename_i hlt
      refine List.pairwise_cons.mpr ⟨fun p hp => ?_, h⟩
      rcases List.mem_cons.mp hp with rfl | hp
      · exact hlt
      · exact String.lt_trans hlt (hn p hp)
    · split
      · exact List.pairwise_cons.mpr ⟨hn, hrest⟩
      · rename_i hlt hne
        refine List.pairwise_cons.mpr ⟨fun p hp => ?_, ih hrest⟩
        rcases mem_addEntry hp with hp | ⟨hname, -⟩
        · exact hn p hp
        · rw [hname]
          exact Std.lt_of_le_of_ne (String.not_lt.mp hlt) (Ne.symm hne)

/-- In order, a name's entries get the new entry on top, and other names keep theirs. -/
theorem find?_addEntry {sections : List (String × List (Entry α))} (h : sections.Pairwise (·.1 < ·.1)) (name n : String)
    (e : Entry α) : (((addEntry name e sections).find? (·.1 == n)).map (·.2)).getD [] =
      (if name = n then [e] else []) ++ ((sections.find? (·.1 == n)).map (·.2)).getD [] := by
  induction sections with
  | nil => by_cases hn : name = n <;> simp [addEntry, hn]
  | cons s rest ih =>
    obtain ⟨m, es⟩ := s
    obtain ⟨hm, hrest⟩ := List.pairwise_cons.mp h
    rw [addEntry]
    split
    · rename_i hlt
      by_cases hn : name = n
      · subst hn
        -- The new name comes before all others, so it has had no entries yet.
        have hnone : ((m, es) :: rest).find? (·.1 == name) = none := by
          rw [List.find?_eq_none]
          intro p hp heq
          obtain rfl : p.1 = name := by simpa using heq
          rcases List.mem_cons.mp hp with rfl | hp
          · exact String.lt_irrefl _ hlt
          · exact String.lt_asymm hlt (hm p hp)
        rw [hnone]
        simp
      · rw [if_neg hn, List.nil_append, List.find?_cons_of_neg (by simpa using hn)]
    · split
      · rename_i hname
        subst hname
        by_cases hn : name = n
        · simp [hn]
        · simp [hn]
      · rename_i hne
        by_cases hmn : m = n
        · subst hmn
          simp [hne]
        · rw [List.find?_cons_of_neg (by simpa using hmn), List.find?_cons_of_neg (by simpa using hmn), ih hrest]

theorem entries_define {c c' : Context α} (hc : c.Ordered) {name : String} {a : α} (h : c.define name a = .ok c') (n : String) :
    c'.entries n = (if name = n then [⟨c.depth - 1, a⟩] else []) ++ c.entries n := by
  rw [define_eq h]
  exact find?_addEntry hc name n _

/-! ### What a context shows -/

/-- The context holds what templates have registered, and shows only what the first of them have: a ceiling hides the newer
ones, up to the frame that is on top. -/
structure Sees (c : Context Action) (newer seen : List (List Action)) : Prop where
  ordered : c.Ordered
  entries : ∀ name, c.entries name = definitions name (newer ++ seen)
  depth : c.depth = (newer ++ seen).length + 1
  shows : ∀ frame, c.shows frame = (decide (frame ≤ seen.length) || decide (c.depth ≤ frame))

namespace Sees

variable {c c' : Context Action} {newer seen : List (List Action)} {name : String}

theorem start : ({} : Context Action).Sees [] [] where
  ordered := List.Pairwise.nil
  entries _ := rfl
  depth := rfl
  shows frame := by
    cases frame with
    | zero => rfl
    | succ frame => simp [Context.shows, Context.depth]

theorem pushFrame (h : c.Sees [] seen) : c.pushFrame.Sees [] ([] :: seen) where
  ordered := h.ordered
  entries := h.entries
  depth := congrArg (· + 1) h.depth
  shows frame := by
    have hdepth : c.pushFrame.depth = seen.length + 2 := congrArg (· + 1) h.depth
    have hshows : c.pushFrame.shows frame = true := by
      refine (h.shows frame).trans ?_
      rw [h.depth, List.nil_append, Bool.or_eq_true, decide_eq_true_iff, decide_eq_true_iff]
      omega
    rw [hshows, hdepth, List.length_cons, eq_comm, Bool.or_eq_true, decide_eq_true_iff, decide_eq_true_iff]
    omega

theorem pushBody (h : c.Sees newer seen) (b : Body) : (c.pushBody b).Sees newer seen := ⟨h.ordered, h.entries, h.depth, h.shows⟩

/-- A template that defines a section has registered it. -/
theorem define {own : List Action} {earlier : List (List Action)} (h : c.Sees [] (own :: earlier)) {a : Action}
    (hd : c.define a.name a = .ok c') : c'.Sees [] ((a :: own) :: earlier) := by
  have hdepth : c'.depth = c.depth := by
    have hpos : c.depth = earlier.length + 2 := h.depth
    have hdefined : c'.depth = c.depth - 1 + 1 := by
      rw [define_eq hd]
      exact congrArg (· + 1) (List.length_tail)
    omega
  refine ⟨?_, fun n => ?_, hdepth.trans h.depth, fun frame => ?_⟩
  · rw [define_eq hd]
    exact addEntry_ordered h.ordered _ _
  · rw [entries_define h.ordered hd, h.entries, h.depth]
    by_cases hn : a.name = n
    · simp [definitions, hn]
    · simp [definitions, hn]
  · rw [hdepth]
    refine Eq.trans ?_ (h.shows frame)
    rw [define_eq hd]
    rfl

/-- What is visible under a name is the latest section among those that are seen. -/
theorem visibleEntry? (h : c.Sees newer seen) (name : String) :
    c.visibleEntry? name = (latest? name seen).map fun (a, before) => ⟨before.length + 1, a⟩ := by
  rw [Context.visibleEntry?, h.entries]
  refine find?_definitions name newer seen fun frame hframe => ?_
  rw [h.shows, h.depth, decide_eq_false (Nat.not_le.mpr (Nat.lt_succ_of_le hframe)), Bool.or_false]

/-- A section sees what the templates before its own have registered. -/
theorem hide (h : c.Sees newer seen) {a : Action} {before : List (List Action)} (hl : latest? name seen = some (a, before)) :
    ∃ newer', (c.hide (before.length + 1)).Sees newer' before := by
  obtain ⟨-, mid, own, rfl, -⟩ := latest?_eq_some hl
  have hsplit : newer ++ (mid ++ own :: before) = (newer ++ mid ++ [own]) ++ before := by simp
  refine ⟨newer ++ mid ++ [own], h.ordered, fun n => ?_, ?_, fun frame => ?_⟩
  · rw [← hsplit]
    exact h.entries n
  · rw [← hsplit]
    exact h.depth
  · show (decide (frame < before.length + 1) || decide (c.depth ≤ frame)) = _
    rw [decide_eq_decide.mpr Nat.lt_succ_iff]
    rfl

end Sees

theorem restoreCeilings_hide (c : Context α) (frame : Nat) : restoreCeilings c (c.hide frame) = c := by
  have hkeep : keep c.ceilings.length (⟨frame, c.depth⟩ :: c.ceilings) = c.ceilings := by
    rw [keep, List.length_cons, Nat.add_sub_cancel_left, List.drop_succ_cons, List.drop_zero]
  show { c with ceilings := keep c.ceilings.length (⟨frame, c.depth⟩ :: c.ceilings) } = c
  rw [hkeep]

end Context

/-! ### Sections that register nothing -/

/-- The section registers no section. -/
def Action.Flat (a : Action) : Prop := ∀ s, a.section? = some s → Ir.Stmt.registersAny s.body = false

/-- The sections of the context register no sections. -/
def Context.Flat (c : Context Action) : Prop := ∀ name, ∀ e ∈ c.entries name, e.action.Flat

theorem Action.flat_of_module {a : Action} (h : a.compiled.module.Flat) : a.Flat :=
  fun s hs => h s (List.mem_of_getElem? hs)

variable {host : Host σ} {c : Context Action}

theorem Action.renderWith_context {a : Action} (ha : a.Flat) {renderSection : String → Execution σ (Option String)}
    (h : ∀ name, Keeps (fun s => s.context = c) (fun _ => True) (fun _ => True) (renderSection name)) :
    Keeps (fun s => s.context = c) (fun _ => True) (fun _ => True) (a.renderWith host renderSection) := by
  unfold renderWith
  split
  · exact .throw trivial
  · rename_i s hs
    have hm : (⟨a.compiled, a.model, host, renderSection⟩ : Machine σ).Surrounded (fun s => s.context = c) (fun _ => True) :=
      ⟨h, fun _ _ _ => ⟨fun _ hs => hs, fun _ _ _ _ => trivial, fun _ _ _ _ => trivial⟩⟩
    exact (Machine.output_traced (fun _ => hm) a.locals fun hr => absurd hr (Bool.eq_false_iff.mp (ha s hs))).keeps

/-- Rendering sections that register nothing leaves the context as it was. -/
theorem renderSectionTo_context (h : c.Flat) (depth : Nat) (name : String) :
    Keeps (fun s => s.context = c) (fun _ => True) (fun _ => True) (renderSectionTo host depth name) := by
  have hvisible : ∀ (c : Context Action) (name : String) {render : Action → Execution σ String},
      c.Flat →
      (∀ a frame, a.Flat → Keeps (fun s => s.context = c.hide frame) (fun _ => True) (fun _ => True) (render a)) →
      Keeps (fun s => s.context = c) (fun _ => True) (fun _ => True) (renderVisible name render) := by
    refine fun c name render hflat hrender => ⟨?_, fun _ _ _ _ => trivial, fun _ _ _ _ => trivial⟩
    rintro s rfl
    rcases hentry : s.context.visibleEntry? name with _ | e
    · rw [renderVisible_none render hentry]
    · rw [renderVisible_some render hentry]
      have ha := hflat name e (List.mem_of_find?_eq_some hentry)
      have hafter := (hrender e.action e.frame ha).kept ⟨s.context.hide e.frame, s.host⟩ rfl
      show Context.restoreCeilings s.context _ = s.context
      rw [hafter, Context.restoreCeilings_hide]
  induction depth generalizing c name with
  | zero => exact hvisible c name h fun _ _ _ => .throw trivial
  | succ depth ih => exact hvisible c name h fun a frame ha => Action.renderWith_context ha fun name => ih (c := c.hide frame) h name

/-- Around code whose context holds only sections that register nothing, the context stays as it is. -/
theorem Machine.surrounded_of_flat {m : Machine σ} {depth : Nat} (hm : m.renderSection = renderSectionTo m.host depth)
    {I : Context Action → Prop} (h : ∀ c, I c → c.Flat) :
    m.Surrounded (fun s => I s.context) fun _ => True where
  sections name := by
    refine ⟨fun s hs => ?_, fun _ _ _ _ => trivial, fun _ _ _ _ => trivial⟩
    rw [hm, (renderSectionTo_context (h _ hs) depth name).kept s rfl]
    exact hs
  partials _ _ _ := ⟨fun _ hs => hs, fun _ _ _ _ => trivial, fun _ _ _ _ => trivial⟩

end Stencil
