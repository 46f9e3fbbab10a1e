import Stencil.Markup.Parser
import Stencil.Markup.Printer

/-! Where the reading of a block stands, and where it leads.

A block is read one character or one construct at a time. A stage is what the reader knows between two of them, and it
leads to a later stage if reading on from either gives the same, whatever the bound on the reading. -/

namespace Stencil.Markup

/-- The reader of the blocks inside the one that is read. -/
def bodyReader (fuel : Nat) : BodyReader := fun block p => blockNodes fuel block 0 {} [] p

/-- What is known between two steps of reading a block: the open braces of its literal text, the text since the last
construct, the nodes before it, last one first, and what has been read of the template. -/
structure Stage where
  depth : Nat
  text : TextRun
  done : List Node
  progress : Progress

namespace Stage

/-- The stage before a template. -/
def start (text : List Char) : Stage := ⟨0, {}, [], { cursor := .ofText text }⟩

/-- The unread text. -/
def rest (s : Stage) : List Char := s.progress.cursor.rest

/-- The nodes read so far. -/
def nodes (s : Stage) : List Node := s.text.closing s.done

/-- Reads the rest of the block. -/
def read (fuel : Nat) (block : Block) (s : Stage) : Except Found (List Node × Progress) :=
  blockNodes fuel block s.depth s.text s.done s.progress

/-- The stage after an at sign. -/
def after (s : Stage) : AtSign → Stage
  | .literal c => { s with text := s.text.push '@' s.progress.cursor.pos, progress := { s.progress with cursor := c } }
  | .comment c => { s with progress := { s.progress with cursor := c } }
  | .code nodes p => ⟨s.depth, {}, nodes.reverse ++ s.text.nodes.reverse ++ s.done, p⟩

end Stage

/-- Reading from `p` up to `rest` declares sections of these names and nothing else. -/
structure Progress.Comes (p : Progress) (names : List String) (rest : List Char) (q : Progress) : Prop where
  rest : q.cursor.rest = rest
  directives : q.directives = p.directives
  sections : q.sections.map (·.1) = p.sections.map (·.1) ++ names

namespace Progress.Comes
variable {p q r : Progress} {ms ns : List String} {rest rest' : List Char}

theorem moved {c : Cursor} (h : c.rest = rest) : p.Comes [] rest { p with cursor := c } :=
  ⟨h, rfl, (List.append_nil _).symm⟩

theorem of_cursor {c : Cursor} (h : Progress.Comes { p with cursor := c } ns rest q) : p.Comes ns rest q :=
  ⟨h.rest, h.directives, h.sections⟩

theorem trans (hq : p.Comes ms rest q) (hr : q.Comes ns rest' r) : p.Comes (ms ++ ns) rest' r :=
  ⟨hr.rest, hr.directives.trans hq.directives, by rw [hr.sections, hq.sections, List.append_assoc]⟩

end Progress.Comes

/-! ### Braces in literal text -/

/-- The literal text of the block takes the number of its open braces to another one. The template itself counts none. -/
def Block.Deepens : Block → Nat → List Char → Nat → Prop
  | .topLevel, depth, _, depth' => depth = 0 ∧ depth' = 0
  | .nested .., depth, cs, depth' => braceDepth? depth cs = some depth'

theorem braceDepth?_append (depth : Nat) (cs ds : List Char) :
    braceDepth? depth (cs ++ ds) = (braceDepth? depth cs).bind fun d => braceDepth? d ds := by
  fun_induction braceDepth? depth cs with
  | case1 => rfl
  | case2 depth cs ih => rw [List.cons_append, braceDepth?, ih]
  | case3 cs => rfl
  | case4 cs depth ih => rw [List.cons_append, braceDepth?, ih]
  | case5 depth c cs ho hc ih => rw [List.cons_append, braceDepth?.eq_5 _ _ _ ho hc, ih]

namespace Block.Deepens
variable {block : Block} {depth depth' : Nat} {cs ds : List Char}

theorem nil (h : block.Deepens depth [] depth') : depth' = depth := by
  cases block with
  | topLevel => exact h.2.trans h.1.symm
  | nested => exact (Option.some.inj h).symm

theorem atSign (h : block.Deepens depth ['@'] depth') : depth' = depth := by
  cases block with
  | topLevel => exact h.2.trans h.1.symm
  | nested => exact (Option.some.inj h).symm

theorem append (h : block.Deepens depth (cs ++ ds) depth') :
    ∃ d, block.Deepens depth cs d ∧ block.Deepens d ds depth' := by
  cases block with
  | topLevel => exact ⟨0, ⟨h.1, rfl⟩, ⟨rfl, h.2⟩⟩
  | nested =>
    rw [Deepens, braceDepth?_append] at h
    exact Option.bind_eq_some_iff.mp h

end Block.Deepens

/-! ### Where a stage leads -/

/-- Reading on from the stage comes to one with the property. -/
def Leads (block : Block) (s : Stage) (P : Stage → Prop) : Prop :=
  ∀ fuel, s.rest.length < fuel → ∃ fuel' t, P t ∧ t.rest.length < fuel' ∧ s.read fuel block = t.read fuel' block

section
variable {block : Block} {s : Stage} {P Q : Stage → Prop} {cs rest : List Char} {depth : Nat}

theorem Leads.here (h : P s) : Leads block s P := fun fuel hf => ⟨fuel, s, h, hf, rfl⟩

theorem Leads.bind (h : Leads block s P) (hq : ∀ t, P t → Leads block t Q) : Leads block s Q := by
  intro fuel hf
  obtain ⟨fuel₁, t, ht, hf₁, hread⟩ := h fuel hf
  obtain ⟨fuel₂, u, hu, hf₂, hread'⟩ := hq t ht fuel₁ hf₁
  exact ⟨fuel₂, u, hu, hf₂, hread.trans hread'⟩

/-- A character that is no at sign is copied. -/
theorem leads_char {x : Char} (hr : s.rest = x :: cs) (hx : x ≠ '@') (hd : block.Deepens s.depth [x] depth)
    (h : P ⟨depth, s.text.push x s.progress.cursor.pos, s.done, { s.progress with cursor := s.progress.cursor.next }⟩) :
    Leads block s P := by
  intro fuel hf
  obtain ⟨fuel, rfl⟩ := Nat.exists_eq_add_one.mpr (Nat.zero_lt_of_lt hf)
  obtain ⟨sdepth, text, done, ⟨⟨rest, pos⟩, ds, ss⟩⟩ := s
  obtain rfl : rest = x :: cs := hr
  refine ⟨fuel, _, h, Nat.lt_of_succ_lt_succ hf, ?_⟩
  show blockNodes (fuel + 1) block sdepth text done _ = _
  rw [blockNodes.eq_def]
  dsimp only [Cursor.peek?, List.head?_cons]
  split
  · contradiction
  · rename_i hat
    cases hat
    exact absurd rfl hx
  · rename_i hat
    cases hat
    -- At the top level braces are text; in a block their depth is counted, and the text has no brace that ends it.
    cases block with
    | topLevel =>
      cases hd.2
      rfl
    | nested =>
      show (if x = '{' then _ else _) = _
      rw [Block.Deepens] at hd
      split
      · rename_i ho
        subst ho
        cases hd
        rfl
      · rename_i ho
        split
        · rename_i hc
          subst hc
          cases sdepth with
          | zero => cases hd
          | succ n =>
            cases hd
            rfl
        · rename_i hc
          rw [braceDepth?.eq_5 _ _ _ ho hc] at hd
          cases hd
          rfl

/-- What an at sign turns out to be leads to the stage after it. -/
theorem leads_atSign (hr : s.rest = '@' :: cs)
    (h : ∀ fuel, s.rest.length ≤ fuel → ∃ sign, atSign (bodyReader fuel) block s.text s.progress = .ok sign ∧
      P (s.after sign) ∧ (s.after sign).rest.length < s.rest.length) : Leads block s P := by
  intro fuel hf
  obtain ⟨fuel, rfl⟩ := Nat.exists_eq_add_one.mpr (Nat.zero_lt_of_lt hf)
  obtain ⟨sign, hsign, hp, hlt⟩ := h fuel (Nat.le_of_lt_succ hf)
  refine ⟨fuel, _, hp, Nat.lt_of_lt_of_le hlt (Nat.le_of_lt_succ hf), ?_⟩
  obtain ⟨sdepth, text, done, ⟨⟨rest, pos⟩, ds, ss⟩⟩ := s
  obtain rfl : rest = '@' :: cs := hr
  show blockNodes (fuel + 1) block sdepth text done _ = _
  rw [blockNodes.eq_def]
  show (atSign (bodyReader fuel) block text _ >>= _) = _
  rw [hsign]
  cases sign <;> rfl

/-- At its end the template is what was read. -/
theorem read_end {fuel : Nat} (hr : s.rest = []) (hf : s.rest.length < fuel) :
    s.read fuel .topLevel = .ok (s.nodes, s.progress) := by
  obtain ⟨fuel, rfl⟩ := Nat.exists_eq_add_one.mpr (Nat.zero_lt_of_lt hf)
  obtain ⟨depth, text, done, ⟨⟨rest, pos⟩, ds, ss⟩⟩ := s
  obtain rfl : rest = [] := hr
  rfl

/-- A template from which the reading comes to the end has the nodes that are read there. -/
theorem ofChars_of_leads {text : List Char} (h : Leads .topLevel (.start text) P) (hend : ∀ t, P t → t.rest = []) :
    ∃ t, P t ∧ Document.ofChars text = .ok ⟨t.nodes, t.progress.directives⟩ := by
  obtain ⟨fuel, t, ht, hfuel, hread⟩ := h _ (Nat.lt_succ_self _)
  rw [read_end (hend t ht) hfuel] at hread
  refine ⟨t, ht, ?_⟩
  show ((Stage.start text).read (text.length + 1) .topLevel >>= _ : Except Found Document) = _
  rw [show text.length + 1 = (Stage.start text).rest.length.succ from rfl, hread]
  rfl

/-- A brace that closes no brace of the literal text ends the block. -/
theorem read_brace {fuel : Nat} (hb : block.isTopLevel = false) (hr : s.rest = '}' :: cs) (hd : s.depth = 0)
    (hf : s.rest.length < fuel) :
    ∃ c, s.read fuel block = .ok (s.nodes, { s.progress with cursor := c }) ∧ c.rest = cs := by
  obtain ⟨fuel, rfl⟩ := Nat.exists_eq_add_one.mpr (Nat.zero_lt_of_lt hf)
  obtain ⟨depth, text, done, ⟨⟨rest, pos⟩, ds, ss⟩⟩ := s
  obtain rfl : rest = '}' :: cs := hr
  obtain rfl : depth = 0 := hd
  cases block with
  | topLevel => cases hb
  | nested => exact ⟨(⟨'}' :: cs, pos⟩ : Cursor).next, rfl, rfl⟩

/-! ### Literal text -/

/-- Two at signs are one of the text, also after a word. -/
theorem atSign_doubled (body : BodyReader) (block : Block) (text : TextRun) {p : Progress}
    (hr : p.cursor.rest = '@' :: '@' :: cs) :
    ∃ c, atSign body block text p = .ok (.literal c) ∧ c.rest = cs := by
  obtain ⟨⟨rest, pos⟩, ds, ss⟩ := p
  obtain rfl : rest = '@' :: '@' :: cs := hr
  refine ⟨(⟨'@' :: '@' :: cs, pos⟩ : Cursor).next.next, ?_, rfl⟩
  have hname : (⟨'@' :: '@' :: cs, pos⟩ : Cursor).next.nextIs Text.isNameChar = false := rfl
  rw [atSign]
  dsimp only
  rw [hname, Bool.and_false]
  rfl

theorem doubleAtSigns_cons (c : Char) (cs : List Char) :
    doubleAtSigns (c :: cs) = (if c = '@' then ['@', '@'] else [c]) ++ doubleAtSigns cs := List.flatMap_cons

/-- A text with doubled at signs is read into the run of literal text. -/
theorem leads_text (hr : s.rest = doubleAtSigns cs ++ rest) (hd : block.Deepens s.depth cs depth) :
    Leads block s fun t => t.depth = depth ∧ t.text.chars = cs.reverse ++ s.text.chars ∧ t.done = s.done ∧
      s.progress.Comes [] rest t.progress := by
  induction cs generalizing s with
  | nil => exact .here ⟨hd.nil.symm, rfl, rfl, .moved hr⟩
  | cons x cs ih =>
    obtain ⟨d, hx, hcs⟩ := Block.Deepens.append (show block.Deepens s.depth ([x] ++ cs) depth from hd)
    -- One character is read; the rest of the text is read from the stage after it.
    suffices hone : Leads block s fun t => t.depth = d ∧ t.text.chars = x :: s.text.chars ∧ t.done = s.done ∧
        s.progress.Comes [] (doubleAtSigns cs ++ rest) t.progress by
      refine hone.bind fun t ⟨hdepth, htext, hdone, hp⟩ => ?_
      refine (ih hp.rest (hdepth ▸ hcs)).bind fun u ⟨hdepth', htext', hdone', hp'⟩ => .here ?_
      refine ⟨hdepth', ?_, hdone'.trans hdone, hp.trans hp'⟩
      rw [htext', htext, List.reverse_cons, List.append_assoc, List.singleton_append]
    rw [doubleAtSigns_cons] at hr
    by_cases hat : x = '@'
    · subst hat
      have hdoubled : s.rest = '@' :: '@' :: (doubleAtSigns cs ++ rest) := hr
      refine leads_atSign hdoubled fun fuel _ => ?_
      obtain ⟨c, hsign, hc⟩ := atSign_doubled (bodyReader fuel) block s.text hdoubled
      refine ⟨.literal c, hsign, ⟨hx.atSign.symm, rfl, rfl, .moved hc⟩, ?_⟩
      show c.rest.length < _
      rw [hc, hdoubled, List.length_cons, List.length_cons]
      omega
    · rw [if_neg hat] at hr
      refine leads_char hr hat hx ⟨rfl, rfl, rfl, .moved ?_⟩
      show s.rest.drop 1 = _
      rw [hr]
      rfl

end

end Stencil.Markup
