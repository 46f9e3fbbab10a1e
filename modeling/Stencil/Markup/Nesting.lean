import Stencil.Markup.Region

/-!
Well-nested code: every bracket outside string literals is closed by one of its own kind, and every literal
is closed on its line. The inner text of a region is what such code says, and a region is read up to the
bracket that closes it.
-/

namespace Stencil.Markup

/-- The characters of a string literal after its opening quote, the closing quote included. -/
inductive LiteralBody : List Char → Prop
  | close : LiteralBody ['"']
  /-- A backslash takes the next character along. -/
  | escape {cs : List Char} (c : Char) (rest : LiteralBody cs) : LiteralBody ('\\' :: c :: cs)
  | char {c : Char} {cs : List Char} (hq : c ≠ '"') (hb : c ≠ '\\') (hn : c ≠ '\n') (rest : LiteralBody cs) :
      LiteralBody (c :: cs)

/-- Code whose brackets and literals are closed. -/
inductive WellNested : List Char → Prop
  | nil : WellNested []
  | char {c : Char} {cs : List Char} (hq : c ≠ '"') (ho : closerOf? c = none) (hc : isCloser c = false)
      (rest : WellNested cs) : WellNested (c :: cs)
  | literal {body cs : List Char} (hb : LiteralBody body) (rest : WellNested cs) :
      WellNested ('"' :: body ++ cs)
  | brackets {o e : Char} {inner cs : List Char} (ho : closerOf? o = some e) (hi : WellNested inner)
      (rest : WellNested cs) : WellNested (o :: inner ++ e :: cs)

/-! ### Reading a region -/

/-- What a region gives if its inner text has more code in front. -/
def prepend (cs : List Char) (r : Except Unmatched (List Char × Cursor)) : Except Unmatched (List Char × Cursor) :=
  r.map fun r => (cs ++ r.1, r.2)

theorem prepend_nil (r : Except Unmatched (List Char × Cursor)) : prepend [] r = r := by
  cases r <;> rfl

theorem prepend_prepend (cs ds : List Char) (r : Except Unmatched (List Char × Cursor)) :
    prepend cs (prepend ds r) = prepend (cs ++ ds) r := by
  cases r with
  | error e => rfl
  | ok r => simp [prepend, Except.map]

theorem prepend_singleton (c : Char) (cs : List Char) (r : Except Unmatched (List Char × Cursor)) :
    prepend [c] (prepend cs r) = prepend (c :: cs) r := prepend_prepend [c] cs r

theorem isCloser_of_closerOf? {o e : Char} (h : closerOf? o = some e) : isCloser e = true := by
  unfold closerOf? at h
  split at h <;> cases h <;> rfl

theorem closerOf?_of_closerOf? {o e : Char} (h : closerOf? o = some e) : closerOf? e = none := by
  unfold closerOf? at h
  split at h <;> cases h <;> rfl

theorem opener_ne_quote {o e : Char} (h : closerOf? o = some e) : o ≠ '"' := by
  rintro rfl; cases h

theorem closer_ne_quote {e : Char} (h : isCloser e = true) : e ≠ '"' := by
  rintro rfl; cases h

/-- A literal is read over. -/
theorem scanRegion_literal {body : List Char} (hb : LiteralBody body) (expected : List Char)
    (opened pos : SourcePos) (cs : List Char) :
    scanRegion expected (.literal opened) pos (body ++ cs) =
      prepend body (scanRegion expected .code (pos.after body) cs) := by
  induction hb generalizing pos with
  | close => rfl
  | escape c _ ih =>
    show prepend ['\\'] (prepend [c] (scanRegion _ _ ((pos.next '\\').next c) (_ ++ cs))) = _
    rw [ih, prepend_singleton, prepend_prepend]
    rfl
  | @char c ds hq hb hn _ ih =>
    rw [List.cons_append, scanRegion]
    simp only [hq, hb, hn, if_false]
    show prepend [c] (scanRegion _ _ (pos.next c) _) = _
    rw [ih, prepend_singleton]
    rfl

/-- Well-nested code is read over. -/
theorem scanRegion_wellNested {w : List Char} (hw : WellNested w) (e : Char) (outer : List Char)
    (pos : SourcePos) (cs : List Char) :
    scanRegion (e :: outer) .code pos (w ++ cs) = prepend w (scanRegion (e :: outer) .code (pos.after w) cs) := by
  induction hw generalizing pos cs e outer with
  | nil => exact (prepend_nil _).symm
  | @char c ds hq ho hc _ ih =>
    rw [List.cons_append, scanRegion]
    simp only [hq, ho, hc, if_false, Bool.false_eq_true]
    show prepend [c] (scanRegion _ _ (pos.next c) _) = _
    rw [ih, prepend_singleton]
    rfl
  | @literal body ds hb _ ih =>
    rw [List.cons_append, List.cons_append, scanRegion]
    simp only [if_true]
    show prepend ['"'] (scanRegion _ _ (pos.next '"') _) = _
    rw [List.append_assoc, scanRegion_literal hb, ih, prepend_prepend, prepend_prepend]
    simp
  | @brackets o f inner ds ho _ _ ihi ih =>
    rw [List.cons_append, List.cons_append, scanRegion]
    simp only [opener_ne_quote ho, ho, if_false]
    show prepend [o] (scanRegion _ _ (pos.next o) _) = _
    rw [List.append_assoc, ihi, List.cons_append, scanRegion]
    have hf := isCloser_of_closerOf? ho
    simp only [closer_ne_quote hf, closerOf?_of_closerOf? ho, hf, if_false, if_true, ne_eq, not_true_eq_false,
      List.isEmpty_cons, Bool.false_eq_true]
    show prepend [o] (prepend inner (prepend [f] (scanRegion _ _ _ _))) = _
    rw [ih, prepend_prepend, prepend_prepend, prepend_prepend]
    simp

/-- Well-nested code between a bracket and its closer is the inner text of a region. -/
theorem balanced_wellNested {o e : Char} (ho : closerOf? o = some e) {w : List Char} (hw : WellNested w)
    (cs : List Char) (p : SourcePos) :
    balanced ⟨o :: (w ++ e :: cs), p⟩ = .ok (⟨w, p.next o⟩, ⟨cs, ((p.next o).after w).next e⟩) := by
  have he := isCloser_of_closerOf? ho
  have hs : scanRegion [e] .code ((p.next o).after w) (e :: cs) = .ok ([], ⟨cs, ((p.next o).after w).next e⟩) := by
    rw [scanRegion]
    simp [closer_ne_quote he, closerOf?_of_closerOf? ho, he]
  simp only [balanced, ho, scanRegion_wellNested hw, hs]
  simp [prepend, Except.map]

/-- Two pieces of well-nested code make well-nested code. -/
theorem WellNested.append {v w : List Char} (hv : WellNested v) (hw : WellNested w) : WellNested (v ++ w) := by
  induction hv with
  | nil => exact hw
  | char hq ho hc _ ih => exact .char hq ho hc ih
  | literal hb _ ih => rw [List.append_assoc]; exact .literal hb ih
  | brackets ho hi _ _ ih => rw [List.append_assoc]; exact .brackets ho hi ih

end Stencil.Markup
