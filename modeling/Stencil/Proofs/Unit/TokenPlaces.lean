import Stencil.Proofs.Unit.UnitSpelling

/-! Where the tokens of a text stand.

A text is read from cursor to cursor, and each token stands where the cursor is before it. As no token goes beyond a line
feed, the tokens of a line are those that are read from its start, at its place. -/

namespace Stencil.Unit

/-- The tokens that are read from a cursor to the end of its text; `lineStart` tells that nothing but blanks stands before
the cursor on its line. -/
inductive Lexed : (lineStart : Bool) → Cursor → List Lexeme → Prop
  | nil {b : Bool} {p : SourcePos} : Lexed b ⟨[], p⟩ []
  | newline {b : Bool} {cs : List Char} {p : SourcePos} {ls : List Lexeme} (h : Lexed true ⟨cs, p.next '\n'⟩ ls) :
      Lexed b ⟨'\n' :: cs, p⟩ ls
  | blank {b : Bool} {x : Char} {cs : List Char} {p : SourcePos} {ls : List Lexeme} (hn : x ≠ '\n')
      (hb : Text.isBlank x = true) (h : Lexed b ⟨cs, p.next x⟩ ls) : Lexed b ⟨x :: cs, p⟩ ls
  | comment {b : Bool} {x : Char} {cs : List Char} {p : SourcePos} {ls : List Lexeme} (hc : x = '/' ∧ cs.head? = some '/')
      (h : Lexed b (⟨x :: cs, p⟩ : Cursor).line.2 ls) : Lexed b ⟨x :: cs, p⟩ ls
  | pragma {cs : List Char} {p : SourcePos} {q : Pragma} {ls : List Lexeme}
      (hq : Pragma.ofLine? (⟨'#' :: cs, p⟩ : Cursor).line.1 = some q) (h : Lexed true (⟨'#' :: cs, p⟩ : Cursor).line.2 ls) :
      Lexed true ⟨'#' :: cs, p⟩ (⟨.pragma q.template, p⟩ :: ls)
  | token {b : Bool} {x : Char} {cs : List Char} {p : SourcePos} {t : Token} {d : Cursor} {ls : List Lexeme}
      (hb : Text.isBlank x = false) (hc : ¬(x = '/' ∧ cs.head? = some '/')) (hp : ¬(x = '#' ∧ b = true))
      (ht : readToken x ⟨x :: cs, p⟩ = .ok (t, d)) (h : Lexed false d ls) : Lexed b ⟨x :: cs, p⟩ (⟨t, p⟩ :: ls)

section
variable {b : Bool} {x : Char} {cs ds : List Char} {p : SourcePos} {c d : Cursor} {ls : List Lexeme} {t : Token}

theorem lexed_of_readLexemes {n : Nat} (h : readLexemes n b c = .ok ls) : Lexed b c ls := by
  induction n generalizing b c ls with
  | zero =>
    obtain ⟨_ | ⟨x, cs⟩, p⟩ := c
    · cases h
      exact .nil
    · cases h
  | succ n ih =>
    obtain ⟨_ | ⟨x, cs⟩, p⟩ := c
    · cases h
      exact .nil
    · rw [readLexemes] at h
      dsimp only at h
      split at h
      · rename_i hn
        subst hn
        exact .newline (ih h)
      · rename_i hn
        split at h
        · rename_i hb
          exact .blank hn hb (ih h)
        · rename_i hb
          split at h
          · rename_i hc
            exact .comment hc (ih h)
          · rename_i hc
            split at h
            · rename_i hp
              obtain ⟨rfl, rfl⟩ := hp
              obtain ⟨⟨t, d⟩, ht, h⟩ := Except.bind_eq_ok.mp h
              obtain ⟨ls', hls, h⟩ := Except.bind_eq_ok.mp h
              cases h
              unfold readPragma at ht
              dsimp only at ht
              split at ht
              · rename_i q hq
                cases ht
                exact .pragma hq (ih hls)
              · cases ht
            · rename_i hp
              obtain ⟨⟨t, d⟩, ht, h⟩ := Except.bind_eq_ok.mp h
              obtain ⟨ls', hls, h⟩ := Except.bind_eq_ok.mp h
              cases h
              exact .token (Bool.eq_false_iff.mpr hb) hc hp ht (ih hls)

theorem lexed_of_lexemes (h : lexemes cs = .ok ls) : Lexed true ⟨cs, .start⟩ ls := lexed_of_readLexemes h

theorem reads_of_readToken (h : readToken x c = .ok (t, d)) : ∃ read, c.Reads read d := by
  unfold readToken at h
  split at h
  · cases h
    exact ⟨_, c.reads_takeWhile _⟩
  · split at h
    · unfold readString at h
      split at h
      · cases h
      · split at h
        · cases h
        · cases h
          exact ⟨_, c.reads_skip _⟩
    · split at h
      · unfold readNumber at h
        dsimp only at h
        split at h
        · cases h
          exact ⟨_, c.reads_skip _⟩
        · cases h
      · split at h
        · cases h
          exact ⟨_, c.reads_skip _⟩
        · cases h

theorem token?_of_readToken (h : readToken x ⟨x :: cs, p⟩ = .ok (t, d)) : token? x (x :: cs) = some (t, d.rest) := by
  rw [← readToken_token? (p := p), h]
  rfl

/-- The tokens that are read are those of the text. -/
theorem Lexed.cut (h : Lexed b c ls) : tokens? b c.rest = some (ls.map (·.token)) := by
  have hdrop : ∀ {x : Char} {cs : List Char}, x ≠ '\n' →
      cs.dropWhile (· != '\n') = (x :: cs).dropWhile (· != '\n') := fun hx =>
    (List.dropWhile_cons_of_pos (by simpa using hx)).symm
  induction h with
  | nil => rfl
  | newline _ ih =>
    rw [tokens?_newline]
    exact ih
  | blank hn hb _ ih =>
    rw [tokens?_blank hb hn]
    exact ih
  | @comment b x cs p ls hc _ ih =>
    obtain ⟨rfl, hc⟩ := hc
    obtain ⟨ds, rfl⟩ := List.head?_eq_some_iff.mp hc
    rw [tokens?_comment]
    exact ih
  | @pragma cs p q ls hq _ ih =>
    rw [tokens?_pragma, hdrop (x := '#') (by decide)]
    show (Option.bind (Pragma.ofLine? (Cursor.line ⟨'#' :: cs, p⟩).1) _ : Cut) = _
    rw [hq, Option.bind_some, show tokens? true (('#' :: cs).dropWhile (· != '\n')) = _ from ih]
    rfl
  | @token b x cs p t d ls hb hc hp ht _ ih =>
    rw [tokens?_token hb hc hp, token?_of_readToken ht, Option.bind_some, ih]
    rfl

/-- The line of a cursor ends at a line feed. -/
theorem line_append (cs ds : List Char) (p : SourcePos) :
    ∃ rest, cs = (⟨cs ++ '\n' :: ds, p⟩ : Cursor).line.1 ++ rest ∧
      (⟨cs ++ '\n' :: ds, p⟩ : Cursor).line.2 =
        ⟨rest ++ '\n' :: ds, p.after (⟨cs ++ '\n' :: ds, p⟩ : Cursor).line.1⟩ := by
  have hstop : ∀ c ∈ ('\n' :: ds).head?, (c != '\n') = false := by
    rintro _ ⟨⟩
    rfl
  obtain ⟨htake, hdrop⟩ := takeWhile_append_of_head hstop cs
  refine ⟨cs.dropWhile (· != '\n'), ?_, ?_⟩
  · rw [Cursor.line, Cursor.takeWhile, htake, List.takeWhile_append_dropWhile]
  · rw [Cursor.line, Cursor.takeWhile, hdrop]

/-- A token that starts on a line ends on it. -/
theorem readToken_line (ht : readToken x ⟨x :: (cs ++ '\n' :: ds), p⟩ = .ok (t, d))
    (hcs : (x :: cs).getLast? ≠ some '\\') :
    ∃ read rest, x :: cs = read ++ rest ∧ d = ⟨rest ++ '\n' :: ds, p.after read⟩ := by
  have hends : Ends ('\n' :: ds) := by
    rintro _ ⟨⟩
    exact .inr (.inr rfl)
  have hquote : takeLiteral? (cs ++ '\n' :: ds) = _ :=
    takeLiteral?_line (fun hlast => hcs (@List.mem_getLast?_append_of_mem_getLast? _ [x] _ _ hlast)) ds
  have htoken := token?_of_readToken ht
  rw [← List.cons_append, token?_append_of hends fun _ => hquote] at htoken
  obtain ⟨⟨_, rest⟩, htake, heq⟩ := Option.map_eq_some_iff.mp htoken
  obtain ⟨rfl, hrest⟩ := Prod.mk.inj heq
  obtain ⟨lex, hfirst⟩ := FirstToken.of_token? htake
  obtain ⟨read, hread, hpos⟩ := reads_of_readToken ht
  -- What is read is what the cut takes: the same text is left.
  obtain rfl : lex = read := by
    rw [← List.cons_append, hfirst.split, List.append_assoc, ← hrest] at hread
    exact List.append_cancel_right hread
  exact ⟨lex, rest, hfirst.split, by rw [hrest, ← hpos]⟩

/-- The tokens of a line are those that are read from its start. -/
theorem Lexed.line (h : Lexed b ⟨cs ++ '\n' :: ds, p⟩ ls) (hcs : cs.getLast? ≠ some '\\') :
    ∃ us vs, ls = us ++ vs ∧ Lexed true ⟨ds, p.after (cs ++ ['\n'])⟩ vs := by
  -- A part of the line is read, and the rest of it by the induction hypothesis.
  have hstep : ∀ {read rest : List Char} {q : SourcePos} {d : Cursor} {ls : List Lexeme},
      (read ++ rest).getLast? ≠ some '\\' → d = ⟨rest ++ '\n' :: ds, q.after read⟩ →
      (∀ {cs p}, cs.getLast? ≠ some '\\' → (⟨cs ++ '\n' :: ds, p⟩ : Cursor) = d →
        ∃ us vs, ls = us ++ vs ∧ Lexed true ⟨ds, p.after (cs ++ ['\n'])⟩ vs) →
      ∃ us vs, ls = us ++ vs ∧ Lexed true ⟨ds, q.after (read ++ rest ++ ['\n'])⟩ vs := by
    intro read rest q d ls hlast hd ih
    rw [List.append_assoc, SourcePos.after_append]
    exact ih (fun hrest => hlast (List.mem_getLast?_append_of_mem_getLast? hrest)) hd.symm
  generalize hc : (⟨cs ++ '\n' :: ds, p⟩ : Cursor) = c at h
  induction h generalizing cs p with
  | nil => cases cs <;> cases hc
  | @newline b es q ls h ih =>
    cases cs with
    | nil =>
      cases hc
      exact ⟨[], ls, rfl, h⟩
    | cons x cs =>
      cases hc
      exact @hstep ['\n'] cs q _ ls hcs rfl ih
  | @blank b x es q ls hn hb h ih =>
    cases cs with
    | nil =>
      cases hc
      exact absurd rfl hn
    | cons x cs =>
      cases hc
      exact @hstep [x] cs q _ ls hcs rfl ih
  | @comment b x es q ls hc' h ih =>
    obtain ⟨rfl, -⟩ := hc'
    cases cs with
    | nil => cases hc
    | cons x cs =>
      cases hc
      obtain ⟨rest, hread, hd⟩ := line_append ('/' :: cs) ds q
      rw [hread] at hcs ⊢
      exact hstep hcs hd ih
  | @pragma es q r ls hq h ih =>
    cases cs with
    | nil => cases hc
    | cons x cs =>
      cases hc
      obtain ⟨rest, hread, hd⟩ := line_append ('#' :: cs) ds q
      rw [hread] at hcs ⊢
      obtain ⟨us, vs, rfl, hv⟩ := hstep hcs hd ih
      exact ⟨_ :: us, vs, rfl, hv⟩
  | @token b x es q t d ls hb hc' hp ht h ih =>
    cases cs with
    | nil =>
      cases hc
      exact absurd hb (by decide)
    | cons x cs =>
      cases hc
      obtain ⟨read, rest, hread, hd⟩ := readToken_line ht hcs
      rw [hread] at hcs ⊢
      obtain ⟨us, vs, rfl, hv⟩ := hstep hcs hd ih
      exact ⟨_ :: us, vs, rfl, hv⟩

/-! ### What is read at the front -/

theorem Lexed.space (h : Lexed b ⟨' ' :: cs, p⟩ ls) : Lexed b ⟨cs, p.next ' '⟩ ls := by
  cases h with
  | blank _ _ h => exact h
  | comment hc => exact absurd hc.1 (by decide)
  | token hb => exact absurd hb (by decide)

/-- A token stands where it is read. -/
theorem Lexed.of_token {r : List Char} (ht : token? x (x :: cs) = some (t, r)) (hx : Text.isBlank x = false ∧ x ≠ '/' ∧ x ≠ '#')
    (h : Lexed b ⟨x :: cs, p⟩ ls) : ∃ read us, x :: cs = read ++ r ∧ ls = ⟨t, p⟩ :: us ∧ Lexed false ⟨r, p.after read⟩ us := by
  obtain ⟨hblank, hslash, hhash⟩ := hx
  cases h with
  | newline => exact absurd hblank (by decide)
  | blank _ hb => exact absurd hb (by rw [hblank]; decide)
  | comment hc => exact absurd hc.1 hslash
  | pragma => exact absurd rfl hhash
  | @token _ _ _ _ t' d us _ _ _ ht' h =>
    obtain ⟨rfl, rfl⟩ := Prod.mk.inj (Option.some.inj ((token?_of_readToken ht').symm.trans ht))
    obtain ⟨rest, q⟩ := d
    obtain ⟨read, hread, rfl⟩ := reads_of_readToken ht'
    exact ⟨read, us, hread, rfl, h⟩

/-- A name stands where it starts. -/
theorem Lexed.name {w : List Char} (hw : Text.isName w = true) (hcs : ∀ d ∈ cs.head?, Text.isNameChar d = false)
    (h : Lexed b ⟨w ++ cs, p⟩ ls) : ∃ us, ls = ⟨.name (String.ofList w), p⟩ :: us ∧ Lexed false ⟨cs, p.after w⟩ us := by
  cases w with
  | nil => cases hw
  | cons x w =>
    have hstart := hw
    rw [Text.isName, Bool.and_eq_true] at hstart
    obtain ⟨read, us, hread, hls, hrest⟩ := Lexed.of_token (token?_of_isName hw hcs) (ne_of_isNameStart hstart.1) h
    obtain rfl : x :: w = read := List.append_cancel_right hread
    exact ⟨us, hls, hrest⟩

/-- A symbol stands where it starts. -/
theorem Lexed.symbol {s : Symbol} (hx : OnlySymbol x = true)
    (hs : (Symbol.all.find? fun t => t.text.toList.isPrefixOf (x :: cs)) = some s) (hone : s.text.length = 1)
    (h : Lexed b ⟨x :: cs, p⟩ ls) : ∃ us, ls = ⟨.symbol s, p⟩ :: us ∧ Lexed false ⟨cs, p.next x⟩ us := by
  obtain ⟨hplain, htoken⟩ := token?_of_onlySymbol hx hs
  rw [hone] at htoken
  obtain ⟨read, us, hread, hls, hrest⟩ := Lexed.of_token htoken hplain h
  obtain rfl : [x] = read := List.append_cancel_right hread
  exact ⟨us, hls, hrest⟩

/-- The first of the tokens stands at a place. -/
def StartAt (ls : List Lexeme) (p : SourcePos) : Prop := ∃ l us, ls = l :: us ∧ l.pos = p

theorem StartAt.append (h : StartAt ls p) (us : List Lexeme) : StartAt (ls ++ us) p := by
  obtain ⟨l, vs, rfl, hl⟩ := h
  exact ⟨l, vs ++ us, rfl, hl⟩

theorem StartAt.unique {q : SourcePos} (h : StartAt ls p) (h' : StartAt ls q) : p = q := by
  obtain ⟨l, us, rfl, rfl⟩ := h
  obtain ⟨_, _, heq, rfl⟩ := h'
  rw [(List.cons.inj heq).1]

theorem Lexed.dotted {ns : List (List Char)} (hns : ns ≠ []) (hall : ∀ n ∈ ns, Text.isName n = true)
    (hcs : ∀ d ∈ cs.head?, Text.isNameChar d = false) (h : Lexed b ⟨['.'].intercalate ns ++ cs, p⟩ ls) :
    ∃ us vs, ls = us ++ vs ∧ StartAt us p ∧
      (∀ l ∈ us, (∃ w, l.token = .name w) ∨ l.token = .symbol .dot) ∧
      Lexed false ⟨cs, p.after (['.'].intercalate ns)⟩ vs := by
  induction ns using dottedCut.induct generalizing b p ls with
  | case1 => exact absurd rfl hns
  | case2 n =>
    rw [List.intercalate_singleton] at h ⊢
    obtain ⟨us, rfl, hrest⟩ := h.name (hall n List.mem_cons_self) hcs
    exact ⟨[_], us, rfl, ⟨_, [], rfl, rfl⟩, List.forall_mem_singleton.mpr (.inl ⟨_, rfl⟩), hrest⟩
  | case3 n m ns ih =>
    have hdot : ∀ d ∈ ('.' :: (['.'].intercalate (m :: ns) ++ cs)).head?, Text.isNameChar d = false := by
      rintro _ ⟨⟩
      decide
    rw [List.intercalate_cons_cons, List.append_assoc, List.append_assoc] at h
    obtain ⟨_, rfl, hcut⟩ := h.name (hall n List.mem_cons_self) hdot
    obtain ⟨_, rfl, hmore⟩ := hcut.symbol (x := '.') (s := .dot) (by decide) rfl rfl
    obtain ⟨us, vs, rfl, -, hmem, hrest⟩ := ih (List.cons_ne_nil _ _) (fun x hx => hall x (List.mem_cons_of_mem _ hx)) hmore
    refine ⟨_ :: _ :: us, vs, rfl, ⟨_, _, rfl, rfl⟩, ?_, ?_⟩
    · exact List.forall_mem_cons.mpr ⟨.inl ⟨_, rfl⟩, List.forall_mem_cons.mpr ⟨.inr rfl, hmem⟩⟩
    · rw [List.intercalate_cons_cons, SourcePos.after_append, SourcePos.after_append]
      exact hrest

/-- The names and dots of a dotted name stand from where it starts. -/
theorem Lexed.path {name : String} (hn : Text.isDottedName name.toList = true)
    (hcs : ∀ d ∈ cs.head?, Text.isNameChar d = false) (h : Lexed b ⟨name.toList ++ cs, p⟩ ls) :
    ∃ us vs, ls = us ++ vs ∧ StartAt us p ∧
      (∀ l ∈ us, (∃ w, l.token = .name w) ∨ l.token = .symbol .dot) ∧ Lexed false ⟨cs, p.after name.toList⟩ vs := by
  rw [← Text.intercalate_fields '.' name.toList] at h ⊢
  exact h.dotted (Text.fields_ne_nil '.' name.toList) (List.all_eq_true.mp hn) hcs

end

end Stencil.Unit
