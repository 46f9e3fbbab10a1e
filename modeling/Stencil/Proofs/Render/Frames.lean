import Stencil.Proofs.Render.Alike
import Stencil.Proofs.Render.Defining
import Stencil.Render.Script

/-! Contexts as stacks of frames.

A definition belongs to the frame that was on top when it was made, and that frame lists its name. So whatever is done in a
frame, with all that is nested in it, touches the definitions of that frame only, and leaving the frame finds each of them
by its name. -/

namespace Stencil

variable {α : Type}

namespace Context

/-! ### Definitions below a frame -/

/-- The entries of the frames below one, or none if nothing is left. -/
def belowFrame (frame : Nat) (es : List (Entry α)) : Option (List (Entry α)) :=
  match es.filter (·.frame < frame) with
  | [] => none
  | es => some es

/-- The sections as the frames below one define them. -/
def onlyBelow (frame : Nat) (sections : List (String × List (Entry α))) : List (String × List (Entry α)) :=
  sections.filterMap fun (n, es) => (belowFrame frame es).map (n, ·)

theorem belowFrame_congr {frame : Nat} {es es' : List (Entry α)}
    (h : es.filter (·.frame < frame) = es'.filter (·.frame < frame)) : belowFrame frame es = belowFrame frame es' := by
  rw [belowFrame, h, belowFrame]

theorem belowFrame_eq_none {frame : Nat} {es : List (Entry α)} (h : ∀ e ∈ es, frame ≤ e.frame) :
    belowFrame frame es = none := by
  have hnil : es.filter (·.frame < frame) = [] := by
    rw [List.filter_eq_nil_iff]
    intro e he
    simpa using h e he
  rw [belowFrame, hnil]

theorem belowFrame_eq_self {frame : Nat} {es : List (Entry α)} (hne : es ≠ []) (h : ∀ e ∈ es, e.frame < frame) :
    belowFrame frame es = some es := by
  have hall : es.filter (·.frame < frame) = es := by
    rw [List.filter_eq_self]
    intro e he
    simpa using h e he
  rw [belowFrame, hall]
  cases es with
  | nil => exact absurd rfl hne
  | cons e es => rfl

theorem onlyBelow_cons (frame : Nat) (n : String) (es : List (Entry α)) (rest : List (String × List (Entry α))) :
    onlyBelow frame ((n, es) :: rest) = ((belowFrame frame es).map (n, ·)).toList ++ onlyBelow frame rest := by
  rw [onlyBelow, List.filterMap_cons]
  dsimp only
  cases belowFrame frame es <;> rfl

theorem onlyBelow_eq_self {frame : Nat} {sections : List (String × List (Entry α))}
    (h : ∀ n es, (n, es) ∈ sections → es ≠ [] ∧ ∀ e ∈ es, e.frame < frame) : onlyBelow frame sections = sections := by
  induction sections with
  | nil => rfl
  | cons s rest ih =>
    obtain ⟨n, es⟩ := s
    obtain ⟨hne, hbelow⟩ := h n es List.mem_cons_self
    have hrest : onlyBelow frame rest = rest := ih fun n es hmem => h n es (List.mem_cons_of_mem _ hmem)
    rw [onlyBelow_cons, belowFrame_eq_self hne hbelow, hrest]
    rfl

/-- A definition in a frame changes nothing below it. -/
theorem onlyBelow_addEntry {frame : Nat} {e : Entry α} (h : frame ≤ e.frame) (name : String)
    (sections : List (String × List (Entry α))) : onlyBelow frame (addEntry name e sections) = onlyBelow frame sections := by
  have hnew : belowFrame frame [e] = none := belowFrame_eq_none fun d hd => by rwa [List.mem_singleton.mp hd]
  have hmore : ∀ es, belowFrame frame (e :: es) = belowFrame frame es := fun es =>
    belowFrame_congr (List.filter_cons_of_neg (by simpa using h))
  induction sections with
  | nil =>
    rw [addEntry, onlyBelow_cons, hnew]
    rfl
  | cons s rest ih =>
    obtain ⟨n, es⟩ := s
    rw [addEntry]
    split
    · rw [onlyBelow_cons, hnew]
      rfl
    · split
      · rw [onlyBelow_cons, hmore, onlyBelow_cons]
      · rw [onlyBelow_cons, ih, onlyBelow_cons]

/-! ### Layers -/

/-- The names that the frame with a number defines, counted from the first frame. -/
def frame? (c : Context α) (i : Nat) : Option (List String) := c.frames.reverse[i]?

/-- Every definition was made in a frame that is still there and has its name. -/
structure Layered (c : Context α) : Prop where
  frames : c.frames ≠ []
  filled : ∀ n es, (n, es) ∈ c.sections → es ≠ []
  recorded : ∀ n es, (n, es) ∈ c.sections → ∀ e ∈ es, ∃ names, c.frame? e.frame = some names ∧ n ∈ names

theorem frame?_eq_some_lt {c : Context α} {i : Nat} {names : List String} (h : c.frame? i = some names) : i < c.depth := by
  obtain ⟨hlt, -⟩ := List.getElem?_eq_some_iff.mp h
  rwa [List.length_reverse] at hlt

theorem frame?_top {c : Context α} {names : List String} {older : List (List String)} (h : c.frames = names :: older) :
    c.frame? older.length = some names := by
  rw [frame?, h, List.reverse_cons, List.getElem?_append_right (Nat.le_of_eq List.length_reverse), List.length_reverse,
    Nat.sub_self]
  rfl

theorem frame?_below {c : Context α} {names : List String} {older : List (List String)} (h : c.frames = names :: older)
    {i : Nat} (hi : i < older.length) : c.frame? i = older.reverse[i]? := by
  rw [frame?, h, List.reverse_cons, List.getElem?_append_left (by rwa [List.length_reverse])]

namespace Layered

variable {c c' : Context α}

theorem start : ({} : Context α).Layered := ⟨List.cons_ne_nil _ _, fun _ _ h => (nomatch h), fun _ _ h => (nomatch h)⟩

theorem congr (h : c.Layered) (hframes : c'.frames = c.frames) (hsections : c'.sections = c.sections) : c'.Layered := by
  obtain ⟨hne, hfilled, hrecorded⟩ := h
  refine ⟨hframes ▸ hne, hsections ▸ hfilled, ?_⟩
  unfold frame? at hrecorded ⊢
  rw [hframes, hsections]
  exact hrecorded

theorem pushFrame (h : c.Layered) : c.pushFrame.Layered where
  frames := List.cons_ne_nil _ _
  filled := h.filled
  recorded n es hmem e he := by
    obtain ⟨names, hframe, hn⟩ := h.recorded n es hmem e he
    exact ⟨names, (frame?_below (c := c.pushFrame) rfl (frame?_eq_some_lt hframe)).trans hframe, hn⟩

theorem below (h : c.Layered) {n : String} {es : List (Entry α)} (hmem : (n, es) ∈ c.sections) {e : Entry α} (he : e ∈ es) :
    e.frame < c.depth := by
  obtain ⟨_, hframe, -⟩ := h.recorded n es hmem e he
  exact frame?_eq_some_lt hframe

theorem onlyBelow_eq (h : c.Layered) : onlyBelow c.depth c.sections = c.sections :=
  onlyBelow_eq_self fun _ _ hmem => ⟨h.filled _ _ hmem, fun _ he => h.below hmem he⟩

theorem visible_below (h : c.Layered) {name : String} {e : Entry α} (he : c.visibleEntry? name = some e) : e.frame < c.depth := by
  have hmem : e ∈ c.entries name := List.mem_of_find?_eq_some he
  unfold entries at hmem
  rcases hfind : c.sections.find? (·.1 == name) with _ | ⟨n, es⟩ <;> rw [hfind] at hmem
  · cases hmem
  · exact h.below (List.mem_of_find?_eq_some hfind) hmem

end Layered

/-! ### Ceilings -/

theorem shows_hide {c : Context α} {frame g : Nat} (hg : g < c.depth) : (c.hide frame).shows g = true ↔ g < frame := by
  have hvisible : ¬ c.depth ≤ g := Nat.not_le.mpr hg
  simp [shows, hide, Ceiling.shows, hvisible]

theorem visibleEntry?_shows {c : Context α} {name : String} {e : Entry α} (h : c.visibleEntry? name = some e) :
    c.shows e.frame = true := by
  unfold visibleEntry? at h
  exact List.find?_some (p := fun e : Entry α => c.shows e.frame) h

/-! ### Operations in a frame -/

/-- A context that has come from another one by what is done in the frame on top. -/
structure Grows (c d : Context α) : Prop where
  layered : d.Layered
  depth : d.depth = c.depth
  frames : d.frames.tail = c.frames.tail
  sections : onlyBelow (c.depth - 1) d.sections = onlyBelow (c.depth - 1) c.sections
  ceilings : d.ceilings = c.ceilings

namespace Grows

variable {c d d' : Context α}

theorem refl (h : c.Layered) : c.Grows c := ⟨h, rfl, rfl, rfl, rfl⟩

theorem trans (h : c.Grows d) (h' : d.Grows d') : c.Grows d' where
  layered := h'.layered
  depth := h'.depth.trans h.depth
  frames := h'.frames.trans h.frames
  sections := by
    have hsections := h'.sections
    rw [h.depth] at hsections
    exact hsections.trans h.sections
  ceilings := h'.ceilings.trans h.ceilings

/-- Only the outputs to wrap differ. -/
theorem of_bodies (h : c.Layered) (bodies : List Body) : c.Grows { c with bodies } := ⟨h.congr rfl rfl, rfl, rfl, rfl, rfl⟩

theorem define (h : c.Layered) {name : String} {a : α} (hd : c.define name a = .ok d) : c.Grows d := by
  obtain ⟨names, older, hframes⟩ := List.exists_cons_of_ne_nil h.frames
  have hdepth : c.depth = older.length + 1 := congrArg List.length hframes
  let top := Text.insertSorted name names
  have heq : d = { c with frames := top :: older, sections := addEntry name ⟨older.length, a⟩ c.sections } := by
    rw [define_eq hd, hframes, hdepth]
    rfl
  -- The frame on top gets the name, and no frame loses one.
  have hnew : d.frame? older.length = some top := frame?_top (by rw [heq])
  have hold : ∀ n es, (n, es) ∈ c.sections → ∀ e ∈ es, ∃ names, d.frame? e.frame = some names ∧ n ∈ names := by
    intro n es hmem e he
    obtain ⟨ms, hframe, hn⟩ := h.recorded n es hmem e he
    rcases Nat.lt_or_eq_of_le (Nat.le_of_lt_succ (hdepth ▸ h.below hmem he)) with hlt | htop
    · rw [frame?_below hframes hlt] at hframe
      exact ⟨ms, (frame?_below (by rw [heq]) hlt).trans hframe, hn⟩
    · rw [htop, frame?_top hframes] at hframe
      cases hframe
      exact ⟨top, htop ▸ hnew, Text.mem_insertSorted.mpr (.inr hn)⟩
  have hsections : d.sections = addEntry name ⟨older.length, a⟩ c.sections := by rw [heq]
  refine ⟨⟨by rw [heq]; exact List.cons_ne_nil _ _, fun n es hmem => ?_, fun n es hmem e he => ?_⟩, ?_, ?_, ?_, by rw [heq]⟩
  · rw [hsections] at hmem
    rcases mem_addEntry hmem with hmem | ⟨-, rfl | ⟨_, -, rfl⟩⟩
    · exact h.filled n es hmem
    · exact List.cons_ne_nil _ _
    · exact List.cons_ne_nil _ _
  · rw [hsections] at hmem
    have htop : name ∈ top := Text.mem_insertSorted.mpr (.inl rfl)
    rcases mem_addEntry hmem with hmem | ⟨rfl, rfl | ⟨es', hmem', rfl⟩⟩
    · exact hold n es hmem e he
    · cases List.mem_singleton.mp he
      exact ⟨top, hnew, htop⟩
    · rcases List.mem_cons.mp he with rfl | he
      · exact ⟨top, hnew, htop⟩
      · exact hold n es' hmem' e he
  · rw [hdepth, heq]
    rfl
  · rw [hframes, heq]
    rfl
  · rw [hsections, hdepth]
    exact onlyBelow_addEntry (e := ⟨older.length, a⟩) (Nat.le_refl _) _ _

end Grows

/-! ### Leaving a frame -/

theorem withoutFrame_eq_none {frame : Nat} {es : List (Entry α)} (h : withoutFrame frame es = none) :
    ∀ e ∈ es, e.frame = frame := by
  unfold withoutFrame at h
  split at h
  · rename_i hnil
    intro e he
    simpa using List.filter_eq_nil_iff.mp hnil e he
  · cases h

theorem withoutFrame_ne_nil {frame : Nat} {es kept : List (Entry α)} (h : withoutFrame frame es = some kept) : kept ≠ [] := by
  unfold withoutFrame at h
  split at h
  · cases h
  · rename_i hne
    cases h
    exact hne

/-- Taking out a name's entries of a frame changes nothing below the frame. -/
theorem onlyBelow_dropEntries (frame : Nat) (name : String) (sections : List (String × List (Entry α))) :
    onlyBelow frame (dropEntries frame sections name) = onlyBelow frame sections := by
  rw [onlyBelow, dropEntries, List.filterMap_filterMap, onlyBelow]
  refine congrArg (List.filterMap · sections) (funext fun (n, es) => ?_)
  dsimp only
  split
  · cases hkept : withoutFrame frame es with
    | none =>
      rw [belowFrame_eq_none fun e he => Nat.le_of_eq (withoutFrame_eq_none hkept e he).symm]
      rfl
    | some kept =>
      have hsame : kept.filter (·.frame < frame) = es.filter (·.frame < frame) := by
        rw [withoutFrame_eq_some hkept, List.filter_filter]
        refine List.filter_congr fun e _ => ?_
        by_cases hlt : e.frame < frame
        · simp [hlt, Nat.ne_of_lt hlt]
        · simp [hlt]
      rw [← belowFrame_congr hsame]
      rfl
  · rfl

/-- Taking out the entries of the newest frame by the names that it defines leaves what is below the frame. -/
theorem foldl_dropEntries {frame : Nat} {names : List String} {sections : List (String × List (Entry α))}
    (hfilled : ∀ n es, (n, es) ∈ sections → es ≠ [])
    (h : ∀ n es, (n, es) ∈ sections → ∀ e ∈ es, e.frame < frame ∨ e.frame = frame ∧ n ∈ names) :
    names.foldl (dropEntries frame) sections = onlyBelow frame sections := by
  induction names generalizing sections with
  | nil =>
    refine (onlyBelow_eq_self fun n es hmem => ⟨hfilled n es hmem, fun e he => ?_⟩).symm
    rcases h n es hmem e he with hlt | ⟨-, hn⟩
    · exact hlt
    · cases hn
  | cons name names ih =>
    -- What is left of a name has no entry of the frame, so the name need not be among the other names.
    rw [List.foldl_cons, ih, onlyBelow_dropEntries]
    · intro n es hmem
      rcases mem_dropEntries hmem with ⟨-, all, -, hkept⟩ | ⟨-, hmem⟩
      · exact withoutFrame_ne_nil hkept
      · exact hfilled n es hmem
    · intro n es hmem e he
      rcases mem_dropEntries hmem with ⟨-, all, hall, hkept⟩ | ⟨hname, hmem⟩
      · rw [withoutFrame_eq_some hkept] at he
        obtain ⟨he, hne⟩ := List.mem_filter.mp he
        rcases h n all hall e he with hlt | ⟨heq, -⟩
        · exact .inl hlt
        · exact absurd heq (by simpa using hne)
      · rcases h n es hmem e he with hlt | ⟨heq, hn⟩
        · exact .inl hlt
        · exact .inr ⟨heq, (List.mem_cons.mp hn).resolve_left hname⟩

theorem Layered.popFrame_eq {c : Context α} (h : c.Layered) {names : List String} {older : List (List String)}
    (hframes : c.frames = names :: older) :
    c.popFrame = { c with frames := older, sections := onlyBelow older.length c.sections } := by
  have hsections : names.foldl (dropEntries older.length) c.sections = onlyBelow older.length c.sections := by
    refine foldl_dropEntries h.filled fun n es hmem e he => ?_
    obtain ⟨ms, hframe, hn⟩ := h.recorded n es hmem e he
    have hlt : e.frame < older.length + 1 := by
      have hbelow := h.below hmem he
      rwa [depth, hframes, List.length_cons] at hbelow
    rcases Nat.lt_or_eq_of_le (Nat.le_of_lt_succ hlt) with hlt | htop
    · exact .inl hlt
    · rw [htop, frame?_top hframes] at hframe
      cases hframe
      exact .inr ⟨htop, hn⟩
  rw [popFrame, hframes]
  dsimp only
  rw [hsections]

/-- Leaving a frame gives the context back, but for the outputs to wrap. -/
theorem Grows.restore_eq {c d : Context α} (hc : c.Layered) (h : c.pushFrame.Grows d) :
    restore c d = { c with bodies := keep c.bodies.length d.bodies } := by
  obtain ⟨names, older, hframes⟩ := List.exists_cons_of_ne_nil h.layered.frames
  obtain rfl : older = c.frames := by
    have htail := h.frames
    rwa [hframes] at htail
  have hone : d.depth - c.depth = 1 := by
    rw [h.depth]
    exact Nat.add_sub_cancel_left c.depth 1
  have hsections : onlyBelow c.frames.length d.sections = c.sections := h.sections.trans hc.onlyBelow_eq
  have hceilings : keep c.ceilings.length d.ceilings = c.ceilings := by
    rw [h.ceilings]
    exact keep_length _
  have hpop : popFrames 1 d = { d with frames := c.frames, sections := onlyBelow c.frames.length d.sections } :=
    h.layered.popFrame_eq hframes
  rw [restore, hone, hpop, hsections]
  dsimp only
  rw [hceilings]

theorem Grows.restore {c d : Context α} (hc : c.Layered) (h : c.pushFrame.Grows d) : c.Grows (restore c d) := by
  rw [restore_eq hc h]
  exact of_bodies hc _

/-- Cutting a stack back to some height keeps what is lower. -/
theorem suffix_keep {bs xs : List Body} {n : Nat} (h : bs <:+ xs) (hlen : bs.length ≤ n) : bs <:+ keep n xs := by
  refine List.suffix_of_suffix_length_le h (List.drop_suffix _ xs) ?_
  have hxs := h.length_le
  rw [keep, List.length_drop]
  omega

/-- Leaving a frame keeps the outputs to wrap that are on both stacks. -/
theorem Grows.suffix_restore {c d : Context α} {bs : List Body} (hd : c.pushFrame.Grows d) (hc : c.Layered)
    (h : bs <:+ c.bodies) (h' : bs <:+ d.bodies) : bs <:+ (Context.restore c d).bodies := by
  rw [hd.restore_eq hc]
  exact suffix_keep h' h.length_le

/-- Leaving a section takes its ceiling away. -/
theorem Grows.restoreCeilings {c d : Context α} {frame : Nat} (h : (c.hide frame).Grows d) : c.Grows (restoreCeilings c d) where
  layered := h.layered.congr rfl rfl
  depth := h.depth
  frames := h.frames
  sections := h.sections
  ceilings := by
    show keep c.ceilings.length d.ceilings = c.ceilings
    rw [h.ceilings]
    exact keep_append [⟨frame, c.depth⟩] c.ceilings

end Context

end Stencil
