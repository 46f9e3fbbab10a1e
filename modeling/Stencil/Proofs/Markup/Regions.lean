import Stencil.Proofs.Markup.Scanning

/-! What reading a region comes to.

The text after an opening bracket is read until it closes the bracket, closes another one, opens a literal that it does
not close, or ends. What was read up to there is well nested but for the brackets that are still open, so each of the
four ends is a shape of the text, and every text has one of the shapes. -/

namespace Stencil.Markup

/-! ### Shapes -/

/-- What follows the opening quote of a literal that is not closed on its line. -/
inductive BrokenLiteral : List Char → Prop
  | ends : BrokenLiteral []
  | newline (cs : List Char) : BrokenLiteral ('\n' :: cs)
  /-- The text ends before the character that the backslash would take along. -/
  | backslash : BrokenLiteral ['\\']
  | escape {cs : List Char} (c : Char) (rest : BrokenLiteral cs) : BrokenLiteral ('\\' :: c :: cs)
  | char {c : Char} {cs : List Char} (hq : c ≠ '"') (hb : c ≠ '\\') (rest : BrokenLiteral cs) : BrokenLiteral (c :: cs)

/-- Code after an opening bracket that does not close the bracket yet: well-nested code and brackets that are not
closed in it, where `closer` would close the first bracket. The closing brackets that the code awaits are listed
innermost first. -/
inductive Pending (closer : Char) : List Char → List Char → Prop
  | code {w : List Char} (hw : WellNested w) : Pending closer [closer] w
  | bracket {awaited v w : List Char} {o e : Char} (hv : Pending closer awaited v) (ho : closerOf? o = some e)
      (hw : WellNested w) : Pending closer (e :: awaited) (v ++ o :: w)

/-- What reading the text after an opening bracket comes to. The text closes the bracket after well-nested code, or it
does not, and then some code that awaits closing brackets is followed by a closing bracket other than the innermost of
them, by a literal that is not closed, or by nothing. -/
inductive Course (closer : Char) (pos : SourcePos) : List Char → Except Unmatched (List Char × Cursor) → Prop
  | closed {w tail : List Char} (hw : WellNested w) :
      Course closer pos (w ++ closer :: tail) (.ok (w, ⟨tail, pos.after (w ++ [closer])⟩))
  | mismatched {e found : Char} {awaited v tail : List Char} (hv : Pending closer (e :: awaited) v)
      (hc : isCloser found = true) (hne : found ≠ e) :
      Course closer pos (v ++ found :: tail) (.error (.mismatched found (pos.after v)))
  | literal {awaited v body : List Char} (hv : Pending closer awaited v) (hb : BrokenLiteral body) :
      Course closer pos (v ++ '"' :: body) (.error (.literal (pos.after v)))
  | unclosed {awaited v : List Char} (hv : Pending closer awaited v) : Course closer pos v (.error .unclosed)

theorem wellNested_closed {o e : Char} (ho : closerOf? o = some e) {w : List Char} (hw : WellNested w) :
    WellNested (o :: w ++ [e]) := .brackets ho hw .nil

section
variable {closer : Char} {awaited v w : List Char}

theorem Pending.exists_cons (hv : Pending closer awaited v) : ∃ e outer, awaited = e :: outer := by
  cases hv <;> exact ⟨_, _, rfl⟩

theorem Pending.append (hv : Pending closer awaited v) (hw : WellNested w) : Pending closer awaited (v ++ w) := by
  cases hv with
  | code hv => exact .code (hv.append hw)
  | bracket hv ho hu =>
    rw [List.append_assoc, List.cons_append]
    exact .bracket hv ho (hu.append hw)

/-- The innermost open bracket is closed; if there was no other one, the code was well nested. -/
theorem Pending.close {e : Char} (hv : Pending closer (e :: awaited) v) :
    (awaited = [] ∧ e = closer ∧ WellNested v) ∨ Pending closer awaited (v ++ [e]) := by
  cases hv with
  | code hw => exact .inl ⟨rfl, rfl, hw⟩
  | bracket hv ho hw =>
    right
    rw [List.append_assoc]
    exact hv.append (wellNested_closed ho hw)

end

/-! ### Every text has a shape -/

/-- A literal is closed, or it is not. -/
theorem brokenLiteral_or_body : ∀ cs : List Char, BrokenLiteral cs ∨ ∃ body tail, LiteralBody body ∧ cs = body ++ tail
  | [] => .inl .ends
  | c :: cs => by
    by_cases hq : c = '"'
    · exact .inr ⟨['"'], cs, .close, by rw [hq]; rfl⟩
    by_cases hb : c = '\\'
    · subst hb
      cases cs with
      | nil => exact .inl .backslash
      | cons d ds =>
        rcases brokenLiteral_or_body ds with hbroken | ⟨body, tail, hbody, rfl⟩
        · exact .inl (.escape d hbroken)
        · exact .inr ⟨'\\' :: d :: body, tail, .escape d hbody, rfl⟩
    by_cases hn : c = '\n'
    · exact .inl (hn ▸ .newline cs)
    rcases brokenLiteral_or_body cs with hbroken | ⟨body, tail, hbody, rfl⟩
    · exact .inl (.char hq hb hbroken)
    · exact .inr ⟨c :: body, tail, .char hq hb hn hbody, rfl⟩
termination_by cs => cs.length

/-- Code that awaits closing brackets comes to something, whatever follows it. The induction is on what follows: each
character, and each closed literal as a whole, belongs to the code before it. -/
theorem Pending.course {closer : Char} (pos : SourcePos) : ∀ {awaited v : List Char} (_ : Pending closer awaited v)
    (cs : List Char), ∃ r, Course closer pos (v ++ cs) r
  | awaited, v, hv, [] => by
    rw [List.append_nil]
    exact ⟨_, .unclosed hv⟩
  | awaited, v, hv, c :: cs => by
    by_cases hq : c = '"'
    · -- A quote opens a literal, which ends in the text or does not.
      subst hq
      rcases brokenLiteral_or_body cs with hbroken | ⟨body, tail, hbody, hcs⟩
      · exact ⟨_, .literal hv hbroken⟩
      · have hlit : WellNested ('"' :: body) := by simpa using WellNested.literal hbody .nil
        have hlength : tail.length ≤ cs.length := by simp [hcs]
        have := (hv.append hlit).course pos tail
        rwa [List.append_assoc, List.cons_append, ← hcs] at this
    cases ho : closerOf? c with
    | some e =>
      have := (Pending.bracket hv ho .nil).course pos cs
      rwa [List.append_assoc] at this
    | none =>
      cases hc : isCloser c with
      | false =>
        have := (hv.append (.char hq ho hc .nil)).course pos cs
        rwa [List.append_assoc] at this
      | true =>
        -- A closer is the one awaited, and then the region ends here or goes on outside of a bracket, or it
        -- mismatches.
        obtain ⟨e, outer, rfl⟩ := hv.exists_cons
        by_cases he : c = e
        · subst he
          rcases hv.close with ⟨-, rfl, hw⟩ | hclosed
          · exact ⟨_, .closed hw⟩
          · have := hclosed.course pos cs
            rwa [List.append_assoc] at this
        · exact ⟨_, .mismatched hv hc he⟩
termination_by _ _ _ cs => cs.length
decreasing_by all_goals simp_wf <;> omega

/-! ### What each shape is read as -/

/-- A literal that is not closed ends the reading with the place where it opens. -/
theorem scanRegion_broken {body : List Char} (hb : BrokenLiteral body) (expected : List Char) (opened pos : SourcePos) :
    scanRegion expected (.literal opened) pos body = .error (.literal opened) := by
  induction hb generalizing pos with
  | ends | newline | backslash => rfl
  | escape c _ ih =>
    show prepend ['\\'] (prepend [c] (scanRegion _ _ ((pos.next '\\').next c) _)) = _
    rw [ih]
    rfl
  | @char c cs hq hb _ ih =>
    simp only [scanRegion, hb, hq, if_false, ih]
    split <;> rfl

theorem scanRegion_opener {o e : Char} (ho : closerOf? o = some e) (expected : List Char) (pos : SourcePos)
    (cs : List Char) :
    scanRegion expected .code pos (o :: cs) = prepend [o] (scanRegion (e :: expected) .code (pos.next o) cs) := by
  simp only [scanRegion, opener_ne_quote ho, ho, if_false]
  rfl

/-- Code is read over with its open brackets awaited. -/
theorem scanRegion_pending {closer : Char} {awaited v : List Char} (hv : Pending closer awaited v) (pos : SourcePos)
    (cs : List Char) :
    scanRegion [closer] .code pos (v ++ cs) = prepend v (scanRegion awaited .code (pos.after v) cs) := by
  induction hv generalizing cs with
  | code hw => exact scanRegion_wellNested hw closer [] pos cs
  | @bracket awaited v w o e hv ho hw ih =>
    rw [List.append_assoc, ih, List.cons_append, scanRegion_opener ho, scanRegion_wellNested hw, prepend_prepend,
      prepend_prepend]
    simp

theorem scanRegion_closer {closer : Char} (hc : isCloser closer = true) (pos : SourcePos) (cs : List Char) :
    scanRegion [closer] .code pos (closer :: cs) = .ok ([], ⟨cs, pos.next closer⟩) := by
  simp [scanRegion, closer_ne_quote hc, closerOf?_eq_none hc, hc]

/-- Reading comes to what the shape of the text says. -/
theorem Course.scanRegion_eq {closer : Char} {pos : SourcePos} {cs : List Char}
    {r : Except Unmatched (List Char × Cursor)} (hcloser : isCloser closer = true) (h : Course closer pos cs r) :
    scanRegion [closer] .code pos cs = r := by
  cases h with
  | closed hw =>
    rw [scanRegion_wellNested hw, scanRegion_closer hcloser]
    simp [prepend, Except.map]
  | mismatched hv hc hne =>
    rw [scanRegion_pending hv]
    simp only [scanRegion, closer_ne_quote hc, closerOf?_eq_none hc, hc, hne.symm, if_false, if_true, ne_eq,
      not_false_eq_true]
    rfl
  | literal hv hb =>
    rw [scanRegion_pending hv]
    simp only [scanRegion, if_true, scanRegion_broken hb]
    rfl
  | unclosed hv =>
    have := scanRegion_pending hv pos []
    rwa [List.append_nil] at this

/-- The shape of the text decides what reading comes to. -/
theorem scanRegion_eq_iff {closer : Char} (hcloser : isCloser closer = true) (pos : SourcePos) (cs : List Char)
    (r : Except Unmatched (List Char × Cursor)) : scanRegion [closer] .code pos cs = r ↔ Course closer pos cs r := by
  constructor
  · rintro rfl
    obtain ⟨r, hr⟩ : ∃ r, Course closer pos cs r := (Pending.code .nil).course pos cs
    rw [hr.scanRegion_eq hcloser]
    exact hr
  · exact Course.scanRegion_eq hcloser

/-! ### Reading a region -/

section
variable {c : Cursor} {o closer : Char} {cs : List Char}

theorem balanced_eq_ok_iff (ho : closerOf? o = some closer) (hrest : c.rest = o :: cs) (f : Fragment) (d : Cursor) :
    balanced c = .ok (f, d) ↔ f.start = c.pos.next o ∧ Course closer (c.pos.next o) cs (.ok (f.text, d)) := by
  rw [← scanRegion_eq_iff (isCloser_of_closerOf? ho)]
  simp only [balanced, hrest, ho]
  cases scanRegion [closer] .code (c.pos.next o) cs with
  | error u => simp [Except.map]
  | ok r =>
    obtain ⟨text, start⟩ := f
    simp only [Except.map, Except.ok.injEq, Fragment.mk.injEq, Prod.ext_iff]
    constructor
    · rintro ⟨⟨ht, hs⟩, hd⟩
      exact ⟨hs.symm, ht, hd⟩
    · rintro ⟨hs, ht, hd⟩
      exact ⟨⟨ht, hs.symm⟩, hd⟩

theorem balanced_eq_error_iff (ho : closerOf? o = some closer) (hrest : c.rest = o :: cs) (u : Unmatched) :
    balanced c = .error u ↔ Course closer (c.pos.next o) cs (.error u) := by
  rw [← scanRegion_eq_iff (isCloser_of_closerOf? ho)]
  simp only [balanced, hrest, ho]
  cases scanRegion [closer] .code (c.pos.next o) cs <;> simp [Except.map]

/-- Reading the region under the cursor succeeds exactly if its bracket is closed after well-nested code, which is then
its inner text and the only such code. Else the reading fails at the end of some code that awaits closing brackets, at
whatever comes there: a closing bracket other than the innermost awaited one, a literal that is not closed, or
nothing. -/
theorem balanced_iff (ho : closerOf? o = some closer) (hrest : c.rest = o :: cs) :
    (∀ f d, balanced c = .ok (f, d) ↔
      WellNested f.text ∧ c.rest = o :: f.text ++ closer :: d.rest ∧ f.start = c.pos.after [o] ∧
        d.pos = c.pos.after (o :: f.text ++ [closer])) ∧
    (∀ w w' tail tail', WellNested w → c.rest = o :: w ++ closer :: tail →
      WellNested w' → c.rest = o :: w' ++ closer :: tail' → w' = w ∧ tail' = tail) ∧
    (∀ found p, balanced c = .error (.mismatched found p) ↔
      ∃ v e awaited tail, Pending closer (e :: awaited) v ∧ isCloser found = true ∧ found ≠ e ∧
        c.rest = o :: v ++ found :: tail ∧ p = c.pos.after (o :: v)) ∧
    (∀ p, balanced c = .error (.literal p) ↔
      ∃ v awaited body, Pending closer awaited v ∧ BrokenLiteral body ∧ c.rest = o :: v ++ '"' :: body ∧
        p = c.pos.after (o :: v)) ∧
    (balanced c = .error .unclosed ↔ ∃ v awaited, Pending closer awaited v ∧ c.rest = o :: v) := by
  have hok : ∀ f d, balanced c = .ok (f, d) ↔
      WellNested f.text ∧ c.rest = o :: f.text ++ closer :: d.rest ∧ f.start = c.pos.after [o] ∧
        d.pos = c.pos.after (o :: f.text ++ [closer]) := by
    intro f d
    obtain ⟨rest, pos⟩ := d
    rw [balanced_eq_ok_iff ho hrest, hrest]
    constructor
    · rintro ⟨hstart, h⟩
      cases h with
      | closed hw => exact ⟨hw, rfl, hstart, rfl⟩
    · rintro ⟨hw, hcs, hstart, rfl⟩
      cases hcs
      exact ⟨hstart, .closed hw⟩
  refine ⟨hok, ?_, fun found p => ?_, fun p => ?_, ?_⟩
  · -- Reading has one outcome, so two splits of the text are the same.
    intro w w' tail tail' hw hrest hw' hrest'
    have h := (hok ⟨w, _⟩ ⟨tail, _⟩).mpr ⟨hw, hrest, rfl, rfl⟩
    have h' := (hok ⟨w', _⟩ ⟨tail', _⟩).mpr ⟨hw', hrest', rfl, rfl⟩
    cases h'.symm.trans h
    exact ⟨rfl, rfl⟩
  · rw [balanced_eq_error_iff ho hrest, hrest]
    constructor
    · intro h
      cases h with
      | mismatched hv hc hne => exact ⟨_, _, _, _, hv, hc, hne, rfl, rfl⟩
    · rintro ⟨v, e, awaited, tail, hv, hc, hne, hcs, rfl⟩
      cases hcs
      exact .mismatched hv hc hne
  · rw [balanced_eq_error_iff ho hrest, hrest]
    constructor
    · intro h
      cases h with
      | literal hv hb => exact ⟨_, _, _, hv, hb, rfl, rfl⟩
    · rintro ⟨v, awaited, body, hv, hb, hcs, rfl⟩
      cases hcs
      exact .literal hv hb
  · rw [balanced_eq_error_iff ho hrest, hrest]
    constructor
    · intro h
      cases h with
      | unclosed hv => exact ⟨_, _, hv, rfl⟩
    · rintro ⟨v, awaited, hv, hcs⟩
      cases hcs
      exact .unclosed hv

end

/-- Brackets within a literal do not count. -/
theorem balanced_iff_call :
    closerOf? '(' = some ')' ∧ WellNested "f[\")\"]".toList ∧
      balanced (.ofText "(f[\")\"])!".toList) = .ok (⟨"f[\")\"]".toList, ⟨1, 2⟩⟩, ⟨['!'], ⟨1, 9⟩⟩) := by
  have hbody : LiteralBody [')', '"'] := .char (by decide) (by decide) (by decide) .close
  have hliteral : WellNested ['"', ')', '"'] := .literal hbody .nil
  have hindex : WellNested ['[', '"', ')', '"', ']'] := .brackets rfl hliteral .nil
  have hw : WellNested "f[\")\"]".toList := .char (by decide) rfl rfl hindex
  exact ⟨rfl, hw, ((balanced_iff (c := .ofText "(f[\")\"])!".toList) rfl rfl).1 _ _).mpr ⟨hw, rfl, rfl, rfl⟩⟩

end Stencil.Markup
