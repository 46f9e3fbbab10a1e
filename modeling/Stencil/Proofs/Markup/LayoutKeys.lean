import Stencil.Proofs.Json.Literal
import Stencil.Proofs.Markup.RoundTrip

/-! The two ways to set a layout.

A code block reads the quoted key as a literal and undoes its escapes. The line of a directive takes off the quotes and
keeps the escapes, so it sets the key as it is spelled between them. The two agree on the keys that need no escape. -/

namespace Stencil

namespace Json

variable {k : List Char}

/-- What stands between the quotes of the literal of a text. -/
def escaped (k : List Char) : List Char := k.flatMap escapeChar

theorem quoteChars_eq (k : List Char) : quoteChars k = '"' :: (escaped k ++ ['"']) := rfl

theorem escaped_cons (c : Char) (k : List Char) : escaped (c :: k) = escapeChar c ++ escaped k := List.flatMap_cons

/-- The character stands for itself in a literal. -/
def IsBare (c : Char) : Prop := c ≠ '"' ∧ c ≠ '\\' ∧ 32 ≤ c.toNat

theorem escapeChar_of_isBare {c : Char} (h : IsBare c) : escapeChar c = [c] := by
  obtain ⟨hq, hb, hc⟩ := h
  have hne {d : Char} (hd : d.toNat < 32) : c ≠ d := fun h => by subst h; omega
  rw [escapeChar, if_neg hq, if_neg hb, if_neg (hne (by decide)), if_neg (hne (by decide)), if_neg (hne (by decide)),
    if_neg (hne (by decide)), if_neg (hne (by decide)), if_neg (by omega)]

/-- The character is written as itself, or as a backslash and something more. -/
theorem escapeChar_cases (c : Char) :
    IsBare c ∧ escapeChar c = [c] ∨ ¬IsBare c ∧
      ∃ d ds, escapeChar c = '\\' :: d :: ds ∧ d ≠ '\n' ∧ ∀ x ∈ ds, x ≠ '"' ∧ x ≠ '\\' ∧ x ≠ '\n' := by
  by_cases h : IsBare c
  · exact .inl ⟨h, escapeChar_of_isBare h⟩
  · refine .inr ⟨h, ?_⟩
    have hhex : ∀ n < 16, Text.hexDigit n ≠ '"' ∧ Text.hexDigit n ≠ '\\' ∧ Text.hexDigit n ≠ '\n' := by decide
    unfold escapeChar
    iterate 7
      split
      · exact ⟨_, [], rfl, by decide, by simp⟩
    split
    · rename_i hc
      have hdigit := hhex (c.toNat / 16) (by omega)
      have hdigit' := hhex (c.toNat % 16) (by omega)
      refine ⟨'u', _, rfl, by decide, ?_⟩
      simp only [List.mem_cons, List.not_mem_nil, or_false]
      rintro x (rfl | rfl | rfl | rfl)
      · decide
      · decide
      · exact hdigit
      · exact hdigit'
    · rename_i hq hb _ _ _ _ _ hc
      exact absurd ⟨hq, hb, by omega⟩ h

theorem escaped_ne_nil (h : k ≠ []) : escaped k ≠ [] := by
  obtain ⟨c, k, rfl⟩ := List.exists_cons_of_ne_nil h
  rw [escaped_cons]
  rcases escapeChar_cases c with ⟨-, hc⟩ | ⟨-, d, ds, hc, -, -⟩ <;> simp [hc]

/-- No character needs an escape exactly if the escaped text is the text. -/
theorem escaped_eq_iff : escaped k = k ↔ ∀ c ∈ k, IsBare c := by
  constructor
  · intro h
    -- An escape makes the text longer, and nothing makes it shorter again.
    have hlen : ∀ ds : List Char, ds.length ≤ (escaped ds).length := by
      intro ds
      induction ds with
      | nil => exact Nat.le_refl _
      | cons c ds ih =>
        rw [escaped_cons, List.length_append]
        rcases escapeChar_cases c with ⟨-, hc⟩ | ⟨-, d, es, hc, -, -⟩ <;> simp [hc] <;> omega
    induction k with
    | nil => simp
    | cons c k ih =>
      rw [escaped_cons] at h
      rcases escapeChar_cases c with ⟨hbare, hc⟩ | ⟨-, d, ds, hc, -, -⟩
      · rw [hc] at h
        have hk := ih (List.cons_eq_cons.mp h).2
        exact fun x hx => (List.mem_cons.mp hx).elim (fun h => h ▸ hbare) (hk x)
      · have hle := hlen k
        have := congrArg List.length h
        simp only [hc, List.length_append, List.length_cons] at this
        omega
  · intro h
    induction k with
    | nil => rfl
    | cons c k ih =>
      rw [escaped_cons, escapeChar_of_isBare (h c List.mem_cons_self), ih fun d hd => h d (List.mem_cons_of_mem _ hd)]
      rfl

end Json

namespace Markup

open Json (quoteChars escaped)

/-! ### A literal in code -/

theorem literalBody_append {cs body : List Char} (h : ∀ c ∈ cs, c ≠ '"' ∧ c ≠ '\\' ∧ c ≠ '\n') (hb : LiteralBody body) :
    LiteralBody (cs ++ body) := by
  induction cs with
  | nil => exact hb
  | cons c cs ih =>
    obtain ⟨hq, hs, hn⟩ := h c List.mem_cons_self
    exact .char hq hs hn (ih fun d hd => h d (List.mem_cons_of_mem _ hd))

theorem literalBody_escaped (k : List Char) : LiteralBody (escaped k ++ ['"']) := by
  induction k with
  | nil => exact .close
  | cons c k ih =>
    rw [Json.escaped_cons, List.append_assoc]
    rcases Json.escapeChar_cases c with ⟨⟨hq, hb, hc⟩, hself⟩ | ⟨-, d, ds, hescape, -, hds⟩
    · rw [hself]
      refine .char hq hb (fun h => ?_) ih
      subst h
      exact absurd hc (by decide)
    · rw [hescape, List.cons_append, List.cons_append]
      exact .escape d (literalBody_append hds ih)

theorem wellNested_quoteChars (k : List Char) : WellNested (quoteChars k) := by
  have h := WellNested.literal (literalBody_escaped k) .nil
  rwa [List.append_nil] at h

/-- Within a literal the reading does not come back to code. -/
theorem LiteralBody.not_closed {body : List Char} (hb : LiteralBody body) :
    ∀ u x v, body = u ++ x :: v → Scan.after? ⟨[], .literal⟩ u ≠ some {} := by
  induction hb with
  | close =>
    intro u x v hu
    cases u with
    | nil => exact fun h => by cases h
    | cons y u => simp at hu
  | @escape cs c hrest ih =>
    intro u x v hu
    match u, hu with
    | [], _ => exact fun h => by cases h
    | [_], hu =>
      cases hu
      exact fun h => by cases h
    | _ :: _ :: u, hu =>
      cases hu
      exact ih u x v rfl
  | @char c cs hq hb hn hrest ih =>
    intro u x v hu
    cases u with
    | nil => exact fun h => by cases h
    | cons y u =>
      cases hu
      rw [Scan.after?_cons, (Scan.Step.inside hb hq hn).step?, Option.bind_some]
      exact ih u x v rfl

theorem sealed_quoteChars (k : List Char) : Sealed (quoteChars k) := by
  intro u v hu hclosed
  cases u with
  | nil => cases hu
  | cons y u =>
    obtain ⟨rfl, hbody⟩ := List.cons_eq_cons.mp hu
    exact (literalBody_escaped k).not_closed u ';' v hbody hclosed

theorem trim_quoteChars (k : List Char) : Text.trim (quoteChars k) = quoteChars k := by
  refine Text.trim_of_ends (fun c hc => ?_) fun c hc => ?_
  · cases hc
    decide
  · rw [Json.quoteChars_eq, ← List.cons_append, List.getLast?_concat] at hc
    cases hc
    decide

theorem newline_not_mem_quoteChars (k : List Char) : '\n' ∉ quoteChars k := by
  have hescape : ∀ c : Char, '\n' ∉ Json.escapeChar c := by
    intro c
    rcases Json.escapeChar_cases c with ⟨⟨-, -, hc⟩, hself⟩ | ⟨-, d, ds, hescape, hd, hds⟩
    · rw [hself, List.mem_singleton]
      rintro rfl
      exact absurd hc (by decide)
    · rw [hescape, List.mem_cons, List.mem_cons]
      rintro (h | h | h)
      · exact absurd h (by decide)
      · exact hd h.symm
      · exact (hds _ h).2.2 rfl
  rw [Json.quoteChars_eq, List.mem_cons, List.mem_append, List.mem_singleton, Json.escaped, List.mem_flatMap]
  rintro (h | ⟨c, -, h⟩ | h)
  · exact absurd h (by decide)
  · exact hescape c h
  · exact absurd h (by decide)

/-! ### Reading a layout -/

/-- Reading from `p` up to `rest` sets the layout and nothing else. -/
structure Progress.SetsLayout (p : Progress) (key rest : List Char) (q : Progress) : Prop where
  rest : q.cursor.rest = rest
  directives : ∃ pos, q.directives = { p.directives with layout := some ⟨String.ofList key, pos⟩ }
  sections : q.sections = p.sections

section
variable {p : Progress} {k rest : List Char}

/-- Taking off the quotes of a literal leaves its escapes. -/
theorem directiveValue_quoteChars (hk : k ≠ []) : directiveValue "layout" (quoteChars k) = .ok (escaped k) := by
  have hstrip : stripQuotes? (quoteChars k) = some (escaped k) := by
    rw [Json.quoteChars_eq, stripQuotes?, List.getLast?_concat, if_pos rfl, List.dropLast_concat]
  have hne : (escaped k).isEmpty = false := by
    rw [List.isEmpty_eq_false_iff]
    exact Json.escaped_ne_nil hk
  simp only [directiveValue, if_true, hstrip, Option.getD_some, hne, Bool.false_eq_true, if_false]

/-- The line of a layout directive sets the layout that is spelled between the quotes, and takes the end of the line along. -/
theorem lineDirective_layout (pos : SourcePos) (hk : k ≠ []) (hl : p.directives.layout = none)
    (hr : p.cursor.rest = ' ' :: (quoteChars k ++ rest)) (hrest : rest.head?.all (· == '\n') = true) :
    ∃ q, lineDirective "layout" pos .topLevel p = .ok q ∧ p.SetsLayout (escaped k) (rest.drop 1) q := by
  have hblanks : p.cursor.rest = [' '] ++ '"' :: (escaped k ++ ['"'] ++ rest) := hr
  obtain ⟨c, htake, hc⟩ := takeWhile_run hblanks (by decide) (show Cursor.isInlineBlank '"' = false from rfl)
  have hskip : p.cursor.skipInlineBlanks = c := by rw [Cursor.skipInlineBlanks, Cursor.skipWhile, htake]
  -- The key is quoted, so it holds no line break, and the line ends behind it.
  have hline : c.line = (quoteChars k, ⟨rest, c.pos.after (quoteChars k)⟩) := by
    have hcs : c.rest = quoteChars k ++ rest := hc
    have hkey : ∀ x ∈ quoteChars k, (x != '\n') = true := fun x hx =>
      bne_iff_ne.mpr fun h => newline_not_mem_quoteChars k (h ▸ hx)
    have hstop : rest.takeWhile (· != '\n') = [] ∧ rest.dropWhile (· != '\n') = rest := by
      cases rest with
      | nil => exact ⟨rfl, rfl⟩
      | cons x rest =>
        obtain rfl : x = '\n' := by simpa using hrest
        exact ⟨rfl, rfl⟩
    rw [Cursor.line, Cursor.takeWhile, hcs, List.takeWhile_append_of_pos hkey, List.dropWhile_append_of_pos hkey, hstop.1,
      hstop.2, List.append_nil]
  have hadd : p.directives.add? "layout" ⟨String.ofList (escaped k), c.pos⟩ =
      some { p.directives with layout := some ⟨String.ofList (escaped k), c.pos⟩ } := by
    rw [Directives.add?, hl]
    rfl
  refine ⟨{ p with
    directives := { p.directives with layout := some ⟨String.ofList (escaped k), c.pos⟩ },
    cursor := (⟨rest, c.pos.after (quoteChars k)⟩ : Cursor).next }, ?_, rfl, ⟨c.pos, rfl⟩, rfl⟩
  simp only [lineDirective, Block.isTopLevel, hskip, hline, trim_quoteChars, directiveValue_quoteChars hk, Except.mapError,
    hadd, bind, Except.bind]
  rfl

/-- What stands between the braces of a code block that sets the layout, but for the semicolon. -/
def layoutStatement (k : List Char) : List Char := "Layout = ".toList ++ quoteChars k

theorem layoutStatement_eq (k : List Char) : layoutStatement k = "Layout = ".toList ++ quoteChars k := rfl

/-- The statement sets the layout to the key that its literal stands for. -/
theorem codeStatement_layout (ds : Directives) (pos : SourcePos) (hk : k ≠ []) (hl : ds.layout = none) :
    ∃ pos', codeStatement .topLevel (ds, []) ⟨layoutStatement k, pos⟩ =
      .ok ({ ds with layout := some ⟨String.ofList k, pos'⟩ }, []) := by
  obtain ⟨pos', hassign⟩ := assignment?_append "Layout ".toList (' ' :: quoteChars k) pos
    (isPlain_of_all (by decide)) (by decide) (by simp)
  have hstatement : "Layout ".toList ++ '=' :: ' ' :: quoteChars k = layoutStatement k := rfl
  have htarget : Text.trim "Layout ".toList = "Layout".toList := by decide
  have hvalue : Text.trim (' ' :: quoteChars k) = quoteChars k := by
    have h := trim_between (show Text.allBlank [' '] = true by decide) (show Text.allBlank [] = true from rfl)
      (List.cons_ne_nil _ _) (trim_quoteChars k)
    rwa [List.append_nil] at h
  rw [hstatement, htarget, hvalue] at hassign
  have hkey : k.isEmpty = false := by rwa [List.isEmpty_eq_false_iff]
  have hblank : Text.allBlank (quoteChars k) = false := rfl
  refine ⟨pos', ?_⟩
  simp only [codeStatement, hassign, Fragment.isBlank, hblank, Bool.false_eq_true, if_false, if_true, assignLayout,
    Block.isTopLevel, Json.unquoteChars?_quoteChars, hkey, hl]
  rfl

/-- A code block with the statement sets the layout to the key, and takes the end of the line along if nothing else is on
it. -/
theorem codeBlock_layout (pos : SourcePos) (hk : k ≠ []) (hl : p.directives.layout = none)
    (hr : p.cursor.rest = '{' :: (" ".toList ++ layoutStatement k ++ "; ".toList ++ '}' :: rest))
    (hrest : rest.head?.all (· == '\n') = true) :
    ∃ q, codeBlock pos .topLevel p = .ok ([], q) ∧ p.SetsLayout k (rest.drop 1) q := by
  have hplain : ∀ c ∈ "Layout = ".toList, IsPlain c := isPlain_of_all (by decide)
  have hnested : WellNested (layoutStatement k) := (wellNested_plain hplain).append (wellNested_quoteChars k)
  have hsealed : Sealed (layoutStatement k) :=
    Sealed.append (closed_plain hplain) (sealed_of_not_mem (by decide)) (sealed_quoteChars k)
  have htrim : Text.trim (layoutStatement k) = layoutStatement k :=
    trim_append (x := 'L') rfl (by decide) (List.cons_ne_nil _ _) (trim_quoteChars k)
  have hinner : WellNested (" ".toList ++ layoutStatement k ++ "; ".toList) :=
    ((wellNested_plain (isPlain_of_all (by decide))).append hnested).append (wellNested_plain (isPlain_of_all (by decide)))
  -- The block is one statement, the assignment of the layout.
  obtain ⟨start, d, hregion, hd⟩ := region_code pos "code block" rfl hinner hr
  obtain ⟨start', hstatements⟩ :
      ∃ start', statements ⟨" ".toList ++ layoutStatement k ++ "; ".toList, start⟩ .statementUnterminated =
        .ok [⟨layoutStatement k, start'⟩] :=
    statements_between " ".toList " ".toList start _ (by decide) (by decide) hnested.closed hsealed
      htrim rfl
  obtain ⟨pos', hstatement⟩ := codeStatement_layout p.directives start' hk hl
  have hend : d.dropBlankLineEnd.rest = rest.drop 1 := by
    obtain ⟨drest, dpos⟩ := d
    obtain rfl : drest = rest := hd
    cases drest with
    | nil => rfl
    | cons x tail =>
      obtain rfl : x = '\n' := by simpa using hrest
      rfl
  refine ⟨{ p with directives := _, cursor := d.dropBlankLineEnd }, ?_, hend, ⟨pos', rfl⟩, rfl⟩
  simp only [codeBlock, hregion, hstatements, List.foldlM_cons, List.foldlM_nil, hstatement, bind, Except.bind]
  rfl

/-- The line of a layout directive with a quoted key. -/
def layoutLine (k : List Char) : List Char := "@layout ".toList ++ quoteChars k

theorem layoutLine_eq (k : List Char) : layoutLine k = "@layout ".toList ++ quoteChars k := rfl

/-- A code block that assigns the layout. -/
def layoutBlock (k : List Char) : List Char := "@\x7b ".toList ++ layoutStatement k ++ "; \x7d".toList

theorem layoutBlock_eq (k : List Char) : layoutBlock k = "@\x7b ".toList ++ layoutStatement k ++ "; \x7d".toList := rfl

end

section
variable {s : Stage} {k rest : List Char}

/-- The line of a directive leads to a layout with the escapes of the key. -/
theorem leads_layoutLine (hk : k ≠ []) (hl : s.progress.directives.layout = none) (htext : s.text = {})
    (hr : s.rest = layoutLine k ++ rest) (hrest : rest.head?.all (· == '\n') = true) :
    Leads .topLevel s fun t =>
      t.text = {} ∧ t.done = s.done ∧ s.progress.SetsLayout (escaped k) (rest.drop 1) t.progress := by
  have hat : s.rest = '@' :: 'l' :: ("ayout".toList ++ ' ' :: (quoteChars k ++ rest)) := by simp [hr, layoutLine_eq]
  have hword : s.progress.cursor.next.rest = "layout".toList ++ ' ' :: (quoteChars k ++ rest) := next_rest hat
  obtain ⟨d, htake, hd⟩ := takeWhile_run hword (by decide) (show Text.isNameChar ' ' = false from rfl)
  obtain ⟨q, hline, hq⟩ := lineDirective_layout (p := { s.progress with cursor := d }) s.progress.cursor.pos hk hl hd hrest
  refine leads_atSign hat fun fuel _ => ⟨.code [] q, ?_, ⟨rfl, ?_, hq.rest, hq.directives, hq.sections⟩, ?_⟩
  · rw [htext]
    refine atSign_named hat rfl ?_
    simp only [named, htake, String.ofList_toList, hline, bind, Except.bind]
    rfl
  · simp [Stage.after, htext, TextRun.nodes]
  · show q.cursor.rest.length < _
    rw [hq.rest, hat]
    simp only [List.length_drop, List.length_cons, List.length_append]
    omega

/-- The code block leads to a layout with the key. -/
theorem leads_layoutBlock (hk : k ≠ []) (hl : s.progress.directives.layout = none) (htext : s.text = {})
    (hr : s.rest = layoutBlock k ++ rest) (hrest : rest.head?.all (· == '\n') = true) :
    Leads .topLevel s fun t => t.text = {} ∧ t.done = s.done ∧ s.progress.SetsLayout k (rest.drop 1) t.progress := by
  have hat : s.rest = '@' :: '{' :: (" ".toList ++ layoutStatement k ++ "; ".toList ++ '}' :: rest) := by
    simp [hr, layoutBlock_eq]
  obtain ⟨q, hblock, hq⟩ := codeBlock_layout (p := { s.progress with cursor := s.progress.cursor.next })
    s.progress.cursor.pos hk hl (next_rest hat) hrest
  refine leads_atSign hat fun fuel _ =>
    ⟨.code [] q, atSign_codeBlock hat hblock, ⟨rfl, ?_, hq.rest, hq.directives, hq.sections⟩, ?_⟩
  · simp [Stage.after, htext, TextRun.nodes]
  · show q.cursor.rest.length < _
    rw [hq.rest, hat]
    simp only [List.length_drop, List.length_cons, List.length_append]
    omega

end

/-- A template in which nothing but a layout is set is read as this layout. -/
theorem parse_of_leads_layout (template : String) {text key : List Char}
    (h : Leads .topLevel (.start text) fun t =>
      t.text = {} ∧ t.done = [] ∧ (Stage.start text).progress.SetsLayout key [] t.progress) :
    ∃ pos, parse template (String.ofList text) = .ok ⟨[], { layout := some ⟨String.ofList key, pos⟩ }⟩ := by
  obtain ⟨t, ⟨htext, hdone, hset⟩, hread⟩ := ofChars_of_leads h fun t ht => ht.2.2.rest
  obtain ⟨pos, hdirectives⟩ := hset.directives
  have hnodes : t.nodes = [] := by rw [Stage.nodes, htext, hdone]; rfl
  refine ⟨pos, ?_⟩
  rw [parse, String.toList_ofList, hread, hnodes, hdirectives]
  rfl

/-- A layout key in a code block is read back, whatever it holds. The line of a directive sets what stands between the
quotes, escapes and all; so the two ways to set a layout agree exactly on the keys in which no character is escaped. -/
theorem parse_layout (template key : String) (hk : key ≠ "") :
    (∃ pos, parse template ("@\x7b Layout = " ++ Json.quote key ++ "; \x7d") = .ok ⟨[], { layout := some ⟨key, pos⟩ }⟩) ∧
      (∃ pos, parse template ("@layout " ++ Json.quote key) =
        .ok ⟨[], { layout := some ⟨String.ofList (escaped key.toList), pos⟩ }⟩) ∧
      (String.ofList (escaped key.toList) = key ↔ ∀ c ∈ key.toList, Json.IsBare c) := by
  have hne : key.toList ≠ [] := fun h => hk (String.toList_eq_nil_iff.mp h)
  refine ⟨?_, ?_, ?_⟩
  · have htext : "@\x7b Layout = " ++ Json.quote key ++ "; \x7d" = String.ofList (layoutBlock key.toList) := by
      apply String.toList_inj.mp
      simp [layoutBlock_eq, layoutStatement_eq, Json.quote]
    rw [htext]
    have h := parse_of_leads_layout template (@leads_layoutBlock (.start (layoutBlock key.toList)) _ [] hne rfl rfl
      (List.append_nil _).symm rfl)
    rwa [String.ofList_toList] at h
  · have htext : "@layout " ++ Json.quote key = String.ofList (layoutLine key.toList) := by
      apply String.toList_inj.mp
      simp [layoutLine_eq, Json.quote]
    rw [htext]
    exact parse_of_leads_layout template (@leads_layoutLine (.start (layoutLine key.toList)) _ [] hne rfl rfl
      (List.append_nil _).symm rfl)
  · rw [← Json.escaped_eq_iff]
    constructor
    · intro h
      have hchars := congrArg String.toList h
      rwa [String.toList_ofList] at hchars
    · intro h
      rw [h, String.ofList_toList]

/-- The line of a directive keeps the backslash before a quote. -/
theorem parse_layout_quote :
    "a\"b" ≠ "" ∧
      (∃ pos, parse "page" "@\x7b Layout = \"a\\\"b\"; \x7d" = .ok ⟨[], { layout := some ⟨"a\"b", pos⟩ }⟩) ∧
      (∃ pos, parse "page" "@layout \"a\\\"b\"" = .ok ⟨[], { layout := some ⟨"a\\\"b", pos⟩ }⟩) := by
  have h := parse_layout "page" "a\"b" (by decide)
  exact ⟨by decide, h.1, h.2.1⟩

end Markup

end Stencil
