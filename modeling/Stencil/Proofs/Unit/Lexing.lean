import Stencil.Proofs.Markup.Scanning
import Stencil.Proofs.Unit.Lines
import Stencil.Proofs.Unit.Reading

/-! The tokens of a text, apart from where they stand.

The lexer reads a text from its front, and what it reads there depends on the rest only up to the end of a token. So
the tokens of a text in two parts are those of the parts, if the second part does not go on with the last token of the
first. -/

namespace Stencil.Unit

/-! ### Tokens without places -/

/-- The token at the front of a text that starts with the character `x`, and the rest of the text. -/
def token? (x : Char) (cs : List Char) : Option (Token × List Char) :=
  (readToken x ⟨cs, .start⟩).toOption.map fun r => (r.1, r.2.rest)

/-- The tokens of a text, if it can be split. -/
abbrev Cut := Option (List Token)

namespace Cut

/-- The tokens of one text before those of another. -/
instance : Append Cut := ⟨fun a b => Option.bind a fun ts => Option.map (ts ++ ·) b⟩

/-- No tokens. -/
def nil : Cut := some []

/-- One token. -/
def one (t : Token) : Cut := some [t]

variable {a b c : Cut} {ts : List Token}

theorem append_eq_some : a ++ b = some ts ↔ ∃ us vs, a = some us ∧ b = some vs ∧ ts = us ++ vs := by
  show Option.bind a (fun ts => Option.map (ts ++ ·) b) = some ts ↔ _
  cases a with
  | none => exact ⟨fun h => (nomatch h), fun ⟨_, _, h, _⟩ => (nomatch h)⟩
  | some us =>
    cases b with
    | none => exact ⟨fun h => (nomatch h), fun ⟨_, _, _, h, _⟩ => (nomatch h)⟩
    | some vs =>
      refine ⟨fun h => ⟨us, vs, rfl, rfl, (Option.some.inj h).symm⟩, ?_⟩
      rintro ⟨_, _, ⟨⟩, ⟨⟩, rfl⟩
      rfl

@[simp] theorem nil_append (a : Cut) : nil ++ a = a := by
  cases a <;> rfl

@[simp] theorem append_nil (a : Cut) : a ++ nil = a := by
  cases a with
  | none => rfl
  | some ts => exact congrArg some (List.append_nil ts)

theorem append_assoc (a b c : Cut) : a ++ b ++ c = a ++ (b ++ c) := by
  cases a with
  | none => rfl
  | some us =>
    cases b with
    | none => rfl
    | some vs =>
      cases c with
      | none => rfl
      | some ws => exact congrArg some (List.append_assoc us vs ws)

/-- These tokens. -/
def all (ts : List Token) : Cut := some ts

theorem all_append (us vs : List Token) : all us ++ all vs = all (us ++ vs) := rfl

end Cut

/-- The tokens of what is read. -/
def cutOf (r : Except Found (List Lexeme)) : Cut := r.toOption.map (·.map (·.token))

/-- The tokens of a text; `lineStart` tells that nothing but blanks stands before it on its line. -/
def tokens? (lineStart : Bool) (cs : List Char) : Cut := cutOf (readLexemes cs.length lineStart ⟨cs, .start⟩)

theorem lexemes_eq_ok {cs : List Char} {ls : List Lexeme} (h : lexemes cs = .ok ls) :
    tokens? true cs = some (ls.map (·.token)) := by
  rw [tokens?, show readLexemes cs.length true ⟨cs, .start⟩ = .ok ls from h]
  rfl

theorem exists_lexemes {cs : List Char} {ts : List Token} (h : tokens? true cs = some ts) :
    ∃ ls, lexemes cs = .ok ls ∧ ls.map (·.token) = ts := by
  obtain ⟨ls, hls, hts⟩ := Option.map_eq_some_iff.mp h
  cases hl : readLexemes cs.length true ⟨cs, .start⟩ with
  | error e =>
    rw [hl] at hls
    cases hls
  | ok ls' =>
    rw [hl] at hls
    cases hls
    exact ⟨ls, hl, hts⟩

/-! ### One token -/

/-- What is read at the front of a text does not depend on its place. -/
theorem readToken_place (x : Char) (cs : List Char) (p q : SourcePos) :
    (readToken x ⟨cs, p⟩).toOption.map (fun r => (r.1, r.2.rest)) =
      (readToken x ⟨cs, q⟩).toOption.map fun r => (r.1, r.2.rest) := by
  unfold readToken
  split
  · rfl
  · split
    · unfold readString
      dsimp only
      split
      · rfl
      · split <;> rfl
    · rw [show (⟨cs, p⟩ : Cursor).peekSecond? = (⟨cs, q⟩ : Cursor).peekSecond? from rfl]
      split
      · unfold readNumber
        dsimp only
        split <;> rfl
      · dsimp only
        split <;> rfl

theorem readToken_token? {x : Char} {cs : List Char} {p : SourcePos} :
    (readToken x ⟨cs, p⟩).toOption.map (fun r => (r.1, r.2.rest)) = token? x cs :=
  readToken_place x cs p .start

/-! #### What a token takes -/

theorem takeWhile_append_of_head {p : Char → Bool} {ds : List Char} (h : ∀ c ∈ ds.head?, p c = false) (cs : List Char) :
    (cs ++ ds).takeWhile p = cs.takeWhile p ∧ (cs ++ ds).dropWhile p = cs.dropWhile p ++ ds := by
  induction cs with
  | nil =>
    cases ds with
    | nil => exact ⟨rfl, rfl⟩
    | cons d ds =>
      have := h d rfl
      simp [this]
  | cons c cs ih =>
    by_cases hc : p c = true
    · simp [hc, ih.1, ih.2]
    · simp [hc]

/-- A point and the digits after it, if the text starts so. -/
def pointDigits : List Char → List Char
  | c :: d :: rest => if c = '.' ∧ d.isDigit = true then '.' :: (d :: rest).takeWhile Char.isDigit else []
  | _ => []

/-- The digits at the front of a text, and those after a point. -/
def takeDecimal (cs : List Char) : List Char := cs.takeWhile Char.isDigit ++ pointDigits (cs.dropWhile Char.isDigit)

theorem drop_length_takeWhile (p : Char → Bool) (cs : List Char) :
    cs.drop (cs.takeWhile p).length = cs.dropWhile p := by
  induction cs with
  | nil => rfl
  | cons c cs ih =>
    by_cases hc : p c = true
    · simpa [hc] using ih
    · simp [hc]

theorem takeNumber_of_sign {cs sign rest : List Char} (hs : (cs.takeWhile (· == '-')).take 1 = sign)
    (hr : cs.drop sign.length = rest) : takeNumber cs = sign ++ takeDecimal rest := by
  unfold takeNumber
  simp only [hs, hr, drop_length_takeWhile, takeDecimal]
  split
  · rename_i d ds heq
    rw [heq, pointDigits]
    split
    · rename_i hd
      rw [if_pos ⟨rfl, hd⟩, List.append_assoc]
    · rename_i hd
      rw [if_neg fun h => hd h.2, List.append_nil]
  · rename_i hnot
    have : pointDigits (rest.dropWhile Char.isDigit) = [] := by
      unfold pointDigits
      split
      · rename_i c d ds heq
        refine if_neg fun h => hnot d ds ?_
        rw [heq, h.1]
      · rfl
    rw [this, List.append_nil]

theorem takeNumber_minus (cs : List Char) : takeNumber ('-' :: cs) = '-' :: takeDecimal cs :=
  @takeNumber_of_sign _ ['-'] _ (by simp) rfl

theorem takeNumber_of_ne {cs : List Char} (h : cs.head? ≠ some '-') : takeNumber cs = takeDecimal cs := by
  refine @takeNumber_of_sign _ [] _ ?_ rfl
  cases cs with
  | nil => rfl
  | cons c cs =>
    have hc : ¬(c == '-') = true := fun hc => h (by simpa using hc)
    simp [hc]

/-- The character ends every token before it. -/
def EndsTokens (c : Char) : Prop := c = ';' ∨ c = ')' ∨ c = '\n'

/-- The text starts with a character that ends every token before it. -/
def Ends (cs : List Char) : Prop := ∀ c ∈ cs.head?, EndsTokens c

theorem EndsTokens.head {p : Char → Bool} (hp : p ';' = false ∧ p ')' = false ∧ p '\n' = false) {cs : List Char}
    (h : Ends cs) : ∀ c ∈ cs.head?, p c = false := by
  intro c hc
  rcases h c hc with rfl | rfl | rfl
  · exact hp.1
  · exact hp.2.1
  · exact hp.2.2

theorem pointDigits_append {ds : List Char} (h : Ends ds) (cs : List Char) :
    pointDigits (cs ++ ds) = pointDigits cs := by
  have hdigit := EndsTokens.head (p := Char.isDigit) (by decide) h
  rcases cs with _ | ⟨c, _ | ⟨d, rest⟩⟩
  · have hdot : ∀ c ∈ ds.head?, (c == '.') = false := EndsTokens.head (by decide) h
    rcases ds with _ | ⟨e, _ | ⟨f, ds⟩⟩
    · rfl
    · rfl
    · refine if_neg fun h => ?_
      have := hdot e rfl
      simp [h.1] at this
  · rcases ds with _ | ⟨e, ds⟩
    · rfl
    · refine if_neg fun h => ?_
      exact Bool.false_ne_true ((hdigit e rfl).symm.trans h.2)
  · have hinner := (takeWhile_append_of_head hdigit (d :: rest)).1
    rw [List.cons_append] at hinner
    rw [List.cons_append, List.cons_append, pointDigits, pointDigits, hinner]

theorem takeDecimal_append {ds : List Char} (h : Ends ds) (cs : List Char) : takeDecimal (cs ++ ds) = takeDecimal cs := by
  obtain ⟨htake, hdrop⟩ := takeWhile_append_of_head (EndsTokens.head (p := Char.isDigit) (by decide) h) cs
  rw [takeDecimal, htake, hdrop, pointDigits_append h, takeDecimal]

theorem takeNumber_append {ds : List Char} (h : Ends ds) {cs : List Char} (hcs : cs ≠ []) :
    takeNumber (cs ++ ds) = takeNumber cs := by
  obtain ⟨c, cs, rfl⟩ := List.exists_cons_of_ne_nil hcs
  by_cases hc : c = '-'
  · rw [hc, List.cons_append, takeNumber_minus, takeNumber_minus, takeDecimal_append h]
  · have hne : ∀ es, (c :: es).head? ≠ some '-' := fun es he => hc (Option.some.inj he)
    rw [List.cons_append, takeNumber_of_ne (hne _), takeNumber_of_ne (hne _), ← List.cons_append, takeDecimal_append h]

theorem pointDigits_isPrefix (cs : List Char) : pointDigits cs <+: cs := by
  unfold pointDigits
  split
  · split
    · rename_i h
      rw [h.1]
      exact (List.prefix_cons_inj _).mpr (List.takeWhile_prefix _)
    · exact List.nil_prefix
  · exact List.nil_prefix

theorem takeDecimal_isPrefix (cs : List Char) : takeDecimal cs <+: cs := by
  conv_rhs => rw [← List.takeWhile_append_dropWhile (p := Char.isDigit) (l := cs)]
  exact (List.prefix_append_right_inj _).mpr (pointDigits_isPrefix _)

theorem takeNumber_isPrefix (cs : List Char) : takeNumber cs <+: cs := by
  by_cases h : cs.head? = some '-'
  · cases cs with
    | nil => cases h
    | cons c cs =>
      cases h
      rw [takeNumber_minus]
      exact List.prefix_cons_inj _ |>.mpr (takeDecimal_isPrefix cs)
  · rw [takeNumber_of_ne h]
    exact takeDecimal_isPrefix cs

/-- A number is made of digits, a point and a sign. -/
theorem mem_takeNumber {cs : List Char} {c : Char} (h : c ∈ takeNumber cs) : c.isDigit = true ∨ c = '.' ∨ c = '-' := by
  have hdigits : ∀ {cs : List Char}, c ∈ cs.takeWhile Char.isDigit → c.isDigit = true := fun h =>
    List.all_eq_true.mp List.all_takeWhile c h
  have hpoint : ∀ cs : List Char, c ∈ pointDigits cs → c.isDigit = true ∨ c = '.' := by
    intro cs h
    unfold pointDigits at h
    split at h
    · split at h
      · rcases List.mem_cons.mp h with h | h
        · exact .inr h
        · exact .inl (hdigits h)
      · cases h
    · cases h
  have hdecimal : ∀ cs : List Char, c ∈ takeDecimal cs → c.isDigit = true ∨ c = '.' ∨ c = '-' := fun cs h =>
    (List.mem_append.mp h).elim (fun h => .inl (hdigits h)) fun h => (hpoint _ h).imp_right .inl
  cases cs with
  | nil => exact hdecimal [] h
  | cons d cs =>
    by_cases hd : d = '-'
    · rw [hd, takeNumber_minus] at h
      rcases List.mem_cons.mp h with h | h
      · exact .inr (.inr h)
      · exact hdecimal cs h
    · have hne : (d :: cs).head? ≠ some '-' := fun h => hd (Option.some.inj h)
      rw [takeNumber_of_ne hne] at h
      exact hdecimal _ h

theorem quote_not_mem_takeNumber (cs : List Char) : '"' ∉ takeNumber cs := by
  intro h
  rcases mem_takeNumber h with h | h | h <;> exact absurd h (by decide)

/-- A symbol has one character or two, and few characters are the second one. -/
theorem symbol_text (s : Symbol) : ∃ a, s.text.toList = [a] ∨ ∃ b ∈ "=>&|".toList, s.text.toList = [a, b] := by
  cases s <;> first
    | exact ⟨_, .inl rfl⟩
    | exact ⟨_, .inr ⟨_, by decide, rfl⟩⟩

theorem isPrefixOf_append {ds : List Char} (h : Ends ds) (s : Symbol) (x : Char) (cs : List Char) :
    s.text.toList.isPrefixOf (x :: cs ++ ds) = s.text.toList.isPrefixOf (x :: cs) := by
  obtain ⟨a, hs | ⟨b, hb, hs⟩⟩ := symbol_text s
  · simp [hs, List.isPrefixOf]
  · rw [hs]
    cases cs with
    | cons c cs => simp [List.isPrefixOf]
    | nil =>
      cases ds with
      | nil => rfl
      | cons d ds =>
        have hbd : (b == d) = false := by
          rw [beq_eq_false_iff_ne]
          rintro rfl
          rcases h b rfl with rfl | rfl | rfl <;> exact absurd hb (by decide)
        simp [List.isPrefixOf, hbd]

/-! #### Literals and comments -/

end Stencil.Unit

namespace Stencil.Markup.Spot

/-- The spot after one more character. -/
def next : Spot → Char → Spot
  | code, c => if c = '"' then literal else code
  | literal, c => if c = '\\' then escaped else if c = '"' then code else literal
  | escaped, _ => literal

/-- The spot after more code. -/
def after (s : Spot) (cs : List Char) : Spot := cs.foldl next s

@[simp] theorem after_nil (s : Spot) : s.after [] = s := rfl

@[simp] theorem after_cons (s : Spot) (c : Char) (cs : List Char) : s.after (c :: cs) = (s.next c).after cs := rfl

theorem after_append (s : Spot) (cs ds : List Char) : s.after (cs ++ ds) = (s.after cs).after ds := List.foldl_append

theorem after_code {cs : List Char} (h : '"' ∉ cs) : code.after cs = code := by
  induction cs with
  | nil => rfl
  | cons c cs ih =>
    rw [List.mem_cons, not_or] at h
    rw [after_cons, next, if_neg (Ne.symm h.1), ih h.2]

end Stencil.Markup.Spot

namespace Stencil.Unit

open Markup (Spot Scan Closed)

theorem spot_of_step {s t : Scan} {c : Char} (h : s.Step c t) : t.spot = s.spot.next c := by
  cases h with
  | quote | backslash | unquote | escaped => rfl
  | opens ho => exact (if_neg (Markup.opener_ne_quote ho)).symm
  | closes he => exact (if_neg (Markup.closer_ne_quote he)).symm
  | plain hc => exact (if_neg hc.1).symm
  | inside hb hq hn => simp [Spot.next, hb, hq]

theorem spot_of_after? {s t : Scan} {cs : List Char} (h : s.after? cs = some t) : t.spot = s.spot.after cs := by
  induction cs generalizing s with
  | nil =>
    cases h
    rfl
  | cons c cs ih =>
    obtain ⟨u, hu, h⟩ := Option.bind_eq_some_iff.mp h
    rw [ih h, Spot.after_cons, spot_of_step (.of_step? hu)]

/-- Outside literals the text has two slashes in a row, with which a comment starts. -/
def hasComment : Spot → List Char → Bool
  | _, [] => false
  | s, c :: cs => s == .code && c == '/' && cs.head? == some '/' || hasComment (s.next c) cs

theorem hasComment_append {s : Spot} {cs ds : List Char} (h : hasComment s (cs ++ ds) = false) :
    hasComment (s.after cs) ds = false := by
  induction cs generalizing s with
  | nil => exact h
  | cons c cs ih =>
    rw [List.cons_append, hasComment, Bool.or_eq_false_iff] at h
    exact ih h.2

/-- The text closes its literals, starts no comment, and stands on one line. -/
structure Tidy (cs : List Char) : Prop where
  closed : Spot.code.after cs = .code
  comment : hasComment .code cs = false
  line : '\n' ∉ cs

theorem Tidy.rest {cs ds : List Char} (h : Tidy (cs ++ ds)) (hc : Spot.code.after cs = .code) : Tidy ds where
  closed := by rw [← hc, ← Spot.after_append, h.closed, hc]
  comment := by
    have := hasComment_append h.comment
    rwa [hc] at this
  line hn := h.line (List.mem_append_right _ hn)

theorem takeLiteral?_escape (c : Char) (cs : List Char) :
    takeLiteral? ('\\' :: c :: cs) = (takeLiteral? cs).map fun r => ('\\' :: c :: r.1, r.2) := by
  rw [takeLiteral?]

theorem takeLiteral?_plain {c : Char} (hn : c ≠ '\n') (hq : c ≠ '"') (hb : c ≠ '\\') (cs : List Char) :
    takeLiteral? (c :: cs) = (takeLiteral? cs).map fun r => (c :: r.1, r.2) := by
  rw [takeLiteral?]
  · exact hn
  · exact hq
  · exact fun h _ => hb h
  · exact fun _ _ h _ => hb h

/-- Induction along the text behind the quote of a literal, by the pieces that a literal is read in. -/
@[elab_as_elim]
theorem literal_induction {motive : List Char → Prop} (nil : motive []) (feed : ∀ cs, motive ('\n' :: cs))
    (quote : ∀ cs, motive ('"' :: cs)) (slash : motive ['\\'])
    (escape : ∀ c cs, motive cs → motive ('\\' :: c :: cs))
    (plain : ∀ c cs, c ≠ '\n' → c ≠ '"' → c ≠ '\\' → motive cs → motive (c :: cs)) (cs : List Char) : motive cs := by
  induction cs using takeLiteral?.induct with
  | case1 => exact nil
  | case2 cs => exact feed cs
  | case3 cs => exact quote cs
  | case4 => exact slash
  | case5 c cs ih => exact escape c cs ih
  | case6 c cs hn hq hb hbc ih =>
    refine plain c cs hn hq ?_ ih
    rintro rfl
    cases cs with
    | nil => exact hb rfl rfl
    | cons d cs => exact hbc d cs rfl rfl

/-- The text behind the quote of a literal begins with the characters of the literal, up to the quote that closes it. -/
inductive TakesLiteral : List Char → List Char → List Char → Prop
  | quote (rest : List Char) : TakesLiteral ('"' :: rest) ['"'] rest
  | escape {cs body rest : List Char} (c : Char) (h : TakesLiteral cs body rest) :
      TakesLiteral ('\\' :: c :: cs) ('\\' :: c :: body) rest
  | plain {cs body rest : List Char} {c : Char} (hn : c ≠ '\n') (hq : c ≠ '"') (hb : c ≠ '\\')
      (h : TakesLiteral cs body rest) : TakesLiteral (c :: cs) (c :: body) rest

theorem TakesLiteral.of_takeLiteral? {cs body rest : List Char} (h : takeLiteral? cs = some (body, rest)) :
    TakesLiteral cs body rest := by
  induction cs using literal_induction generalizing body with
  | nil | feed | slash => cases h
  | quote cs =>
    cases h
    exact .quote _
  | escape c cs ih =>
    rw [takeLiteral?_escape] at h
    obtain ⟨⟨body', rest'⟩, htake, h⟩ := Option.map_eq_some_iff.mp h
    cases h
    exact .escape c (ih htake)
  | plain c cs hn hq hb ih =>
    rw [takeLiteral?_plain hn hq hb] at h
    obtain ⟨⟨body', rest'⟩, htake, h⟩ := Option.map_eq_some_iff.mp h
    cases h
    exact .plain hn hq hb (ih htake)

/-- A literal is read alike before any text. -/
theorem TakesLiteral.before {cs body rest : List Char} (h : TakesLiteral cs body rest) (ds : List Char) :
    takeLiteral? (body ++ ds) = some (body, ds) := by
  induction h with
  | quote => rfl
  | escape c _ ih =>
    rw [List.cons_append, List.cons_append, takeLiteral?_escape, ih]
    rfl
  | plain hn hq hb _ ih =>
    rw [List.cons_append, takeLiteral?_plain hn hq hb, ih]
    rfl

/-- A literal ends with the quote that closes it. -/
theorem takeLiteral?_eq_some {cs body rest : List Char} (h : takeLiteral? cs = some (body, rest)) :
    cs = body ++ rest ∧ Spot.literal.after body = .code := by
  have htakes := TakesLiteral.of_takeLiteral? h
  clear h
  induction htakes with
  | quote => exact ⟨rfl, rfl⟩
  | escape c _ ih => exact ⟨congrArg ('\\' :: c :: ·) ih.1, ih.2⟩
  | @plain _ _ _ c _ hq hb _ ih =>
    refine ⟨congrArg (c :: ·) ih.1, ?_⟩
    rw [Spot.after_cons, Spot.next, if_neg hb, if_neg hq, ih.2]

/-- A text that closes its literal on the line gives it. -/
theorem takeLiteral?_closed {cs : List Char} (h : Spot.literal.after cs = .code) (hn : '\n' ∉ cs) :
    ∃ body rest, takeLiteral? cs = some (body, rest) := by
  induction cs using literal_induction with
  | nil | slash => cases h
  | feed cs => exact absurd List.mem_cons_self hn
  | quote cs => exact ⟨['"'], cs, rfl⟩
  | escape c cs ih =>
    obtain ⟨body, rest, htake⟩ := ih h fun hm => hn (by simp [hm])
    exact ⟨'\\' :: c :: body, rest, by rw [takeLiteral?_escape, htake]; rfl⟩
  | plain c cs hnl hq hb ih =>
    rw [Spot.after_cons, Spot.next, if_neg hb, if_neg hq] at h
    obtain ⟨body, rest, htake⟩ := ih h fun hm => hn (by simp [hm])
    exact ⟨c :: body, rest, by rw [takeLiteral?_plain hnl hq hb, htake]; rfl⟩

/-- A literal ends on its line, unless a backslash takes the line feed along. -/
theorem takeLiteral?_line {cs : List Char} (h : cs.getLast? ≠ some '\\') (ds : List Char) :
    takeLiteral? (cs ++ '\n' :: ds) = (takeLiteral? cs).map fun r => (r.1, r.2 ++ '\n' :: ds) := by
  have htail : ∀ {c : Char} {cs : List Char}, (c :: cs).getLast? ≠ some '\\' → cs.getLast? ≠ some '\\' := by
    intro c cs h
    cases cs with
    | nil => exact nofun
    | cons d cs => simpa using h
  induction cs using literal_induction with
  | nil | feed | quote => rfl
  | slash => exact absurd rfl h
  | escape c cs ih =>
    show takeLiteral? ('\\' :: c :: (cs ++ '\n' :: ds)) = _
    rw [takeLiteral?_escape, takeLiteral?_escape, ih (htail (htail h)), Option.map_map, Option.map_map]
    rfl
  | plain c cs hn hq hb ih =>
    show takeLiteral? (c :: (cs ++ '\n' :: ds)) = _
    rw [takeLiteral?_plain hn hq hb, takeLiteral?_plain hn hq hb, ih (htail h), Option.map_map, Option.map_map]
    rfl

/-! #### The kinds of tokens -/

section
variable {x : Char} {cs ds rest : List Char} {t : Token}

theorem token?_name (hx : Text.isNameStart x = true) (cs : List Char) : token? x (x :: cs) =
    some (.name (String.ofList ((x :: cs).takeWhile Text.isNameChar)), (x :: cs).dropWhile Text.isNameChar) := by
  rw [token?, readToken, if_pos hx]
  rfl

theorem token?_quote (cs : List Char) : token? '"' ('"' :: cs) = (takeLiteral? cs).bind fun r =>
    (Json.unquoteChars? ('"' :: r.1)).map fun text => (.string (String.ofList text), cs.drop r.1.length) := by
  rw [token?, readToken, if_neg (by decide), if_pos rfl, readString]
  have hdrop : (⟨'"' :: cs, SourcePos.start⟩ : Cursor).rest.drop 1 = cs := rfl
  rw [hdrop]
  cases takeLiteral? cs with
  | none => rfl
  | some r =>
    rw [Option.bind_some]
    dsimp only
    cases Json.unquoteChars? ('"' :: r.1) <;> rfl

/-- A number starts here. -/
def StartsNumber (x : Char) (cs : List Char) : Prop :=
  (x.isDigit || x == '-' && cs.head?.any Char.isDigit) = true

instance (x : Char) (cs : List Char) : Decidable (StartsNumber x cs) := inferInstanceAs (Decidable (_ = true))

theorem token?_number (hx : Text.isNameStart x = false) (hq : x ≠ '"') (hn : StartsNumber x cs) :
    token? x (x :: cs) = (Json.readNumber? (takeNumber (x :: cs))).bind fun r => match r with
      | (some n, []) => some (.number n, (x :: cs).drop (takeNumber (x :: cs)).length)
      | _ => none := by
  have hn' : (x.isDigit || x == '-' && (⟨x :: cs, .start⟩ : Cursor).peekSecond?.any Char.isDigit) = true := hn
  rw [token?, readToken, if_neg (by simp [hx]), if_neg hq, if_pos hn', readNumber]
  dsimp only
  cases Json.readNumber? (takeNumber (x :: cs)) with
  | none => rfl
  | some r => rcases r with ⟨_ | n, _ | ⟨c, cs⟩⟩ <;> rfl

theorem token?_symbol (hx : Text.isNameStart x = false) (hq : x ≠ '"') (hn : ¬StartsNumber x cs) :
    token? x (x :: cs) = (Symbol.all.find? fun s => s.text.toList.isPrefixOf (x :: cs)).map fun s =>
      (.symbol s, (x :: cs).drop s.text.length) := by
  have hn' : ¬(x.isDigit || x == '-' && (⟨x :: cs, .start⟩ : Cursor).peekSecond?.any Char.isDigit) = true := hn
  rw [token?, readToken, if_neg (by simp [hx]), if_neg hq, if_neg hn']
  dsimp only
  cases Symbol.all.find? fun s => s.text.toList.isPrefixOf (x :: cs) <;> rfl

theorem takeNumber_ne_nil (hn : StartsNumber x cs) : takeNumber (x :: cs) ≠ [] := by
  by_cases hx : x = '-'
  · rw [hx, takeNumber_minus]
    exact List.cons_ne_nil _ _
  · have hd : x.isDigit = true := by
      simpa [StartsNumber, hx] using hn
    have hne : (x :: cs).head? ≠ some '-' := fun h => hx (Option.some.inj h)
    rw [takeNumber_of_ne hne, takeDecimal]
    simp [hd]

/-- A text starts with a token: its characters and what is left of the text, by the kind of the token. -/
inductive FirstToken (x : Char) (cs : List Char) : Token → List Char → List Char → Prop
  | name (hx : Text.isNameStart x = true) : FirstToken x cs (.name (String.ofList ((x :: cs).takeWhile Text.isNameChar)))
      ((x :: cs).takeWhile Text.isNameChar) ((x :: cs).dropWhile Text.isNameChar)
  | literal {body text rest : List Char} (hx : x = '"') (hlit : takeLiteral? cs = some (body, rest))
      (htext : Json.unquoteChars? ('"' :: body) = some text) :
      FirstToken x cs (.string (String.ofList text)) ('"' :: body) rest
  | number {n : Number} (hx : Text.isNameStart x = false) (hq : x ≠ '"') (hn : StartsNumber x cs)
      (hread : Json.readNumber? (takeNumber (x :: cs)) = some (some n, [])) :
      FirstToken x cs (.number n) (takeNumber (x :: cs)) ((x :: cs).drop (takeNumber (x :: cs)).length)
  | symbol {s : Symbol} (hx : Text.isNameStart x = false) (hq : x ≠ '"') (hn : ¬StartsNumber x cs)
      (hs : (Symbol.all.find? fun s => s.text.toList.isPrefixOf (x :: cs)) = some s) :
      FirstToken x cs (.symbol s) s.text.toList ((x :: cs).drop s.text.length)

namespace FirstToken

theorem of_token? (h : token? x (x :: cs) = some (t, rest)) : ∃ lex, FirstToken x cs t lex rest := by
  by_cases hx : Text.isNameStart x = true
  · rw [token?_name hx] at h
    cases h
    exact ⟨_, .name hx⟩
  have hx := Bool.eq_false_iff.mpr hx
  by_cases hq : x = '"'
  · subst hq
    rw [token?_quote] at h
    obtain ⟨⟨body, r⟩, hlit, h⟩ := Option.bind_eq_some_iff.mp h
    obtain ⟨text, htext, h⟩ := Option.map_eq_some_iff.mp h
    cases h
    obtain ⟨rfl, -⟩ := takeLiteral?_eq_some hlit
    rw [List.drop_left]
    exact ⟨_, .literal rfl hlit htext⟩
  by_cases hn : StartsNumber x cs
  · rw [token?_number hx hq hn] at h
    obtain ⟨⟨_ | n, _ | ⟨c, ds⟩⟩, hread, h⟩ := Option.bind_eq_some_iff.mp h <;> cases h
    exact ⟨_, .number hx hq hn hread⟩
  · rw [token?_symbol hx hq hn] at h
    obtain ⟨s, hs, h⟩ := Option.map_eq_some_iff.mp h
    cases h
    exact ⟨_, .symbol hx hq hn hs⟩

variable {lex : List Char}

theorem split (h : FirstToken x cs t lex rest) : x :: cs = lex ++ rest := by
  cases h with
  | name _ => exact List.takeWhile_append_dropWhile.symm
  | literal hx hlit _ =>
    obtain ⟨rfl, -⟩ := takeLiteral?_eq_some hlit
    rw [hx, List.cons_append]
  | number _ _ _ _ => exact (List.prefix_iff_eq_append.mp (takeNumber_isPrefix (x :: cs))).symm
  | @symbol s _ _ _ hs =>
    have hprefix : s.text.toList.isPrefixOf (x :: cs) = true :=
      List.find?_some (p := fun s : Symbol => s.text.toList.isPrefixOf (x :: cs)) hs
    rw [← String.length_toList]
    exact (List.prefix_iff_eq_append.mp (List.isPrefixOf_iff_prefix.mp hprefix)).symm

theorem ne_nil (h : FirstToken x cs t lex rest) : lex ≠ [] := by
  cases h with
  | name hx =>
    rw [List.takeWhile_cons_of_pos (Text.isNameChar_of_isNameStart hx)]
    exact List.cons_ne_nil _ _
  | literal _ _ _ => exact List.cons_ne_nil _ _
  | number _ _ hn _ => exact takeNumber_ne_nil hn
  | @symbol s _ _ _ _ => cases s <;> decide

/-- A token closes the literals it opens. -/
theorem after_eq (h : FirstToken x cs t lex rest) : Spot.code.after lex = .code := by
  cases h with
  | name _ => exact Spot.after_code fun hq => absurd (List.all_eq_true.mp List.all_takeWhile _ hq) (by decide)
  | literal _ hlit _ => exact (takeLiteral?_eq_some hlit).2
  | number _ _ _ _ => exact Spot.after_code (quote_not_mem_takeNumber _)
  | @symbol s _ _ _ _ => cases s <;> decide

end FirstToken

theorem startsNumber_append (h : Ends ds) : StartsNumber x (cs ++ ds) ↔ StartsNumber x cs := by
  unfold StartsNumber
  cases cs with
  | cons c cs => rfl
  | nil =>
    have hdigit : ds.head?.any Char.isDigit = false := by
      cases ds with
      | nil => rfl
      | cons d ds => exact EndsTokens.head (p := Char.isDigit) (by decide) h d rfl
    rw [List.nil_append, hdigit]
    rfl

/-- A token is shorter than nothing: reading it leaves less. -/
theorem token?_length (h : token? x (x :: cs) = some (t, rest)) : rest.length < (x :: cs).length := by
  obtain ⟨lex, hfirst⟩ := FirstToken.of_token? h
  have hpos := List.length_pos_iff.mpr hfirst.ne_nil
  rw [hfirst.split, List.length_append]
  omega

theorem token?_ne_pragma (h : token? x (x :: cs) = some (t, rest)) (p : SourcePos) : t ≠ .pragma p := by
  obtain ⟨lex, hfirst⟩ := FirstToken.of_token? h
  cases hfirst <;> exact nofun

/-- A token is read alike before a text that ends it, if a literal that it opens is. -/
theorem token?_append_of (h : Ends ds)
    (hquote : x = '"' → takeLiteral? (cs ++ ds) = (takeLiteral? cs).map fun r => (r.1, r.2 ++ ds)) :
    token? x (x :: cs ++ ds) = (token? x (x :: cs)).map fun r => (r.1, r.2 ++ ds) := by
  rw [List.cons_append]
  by_cases hx : Text.isNameStart x = true
  · obtain ⟨htake, hdrop⟩ := takeWhile_append_of_head (EndsTokens.head (p := Text.isNameChar) (by decide) h) (x :: cs)
    rw [token?_name hx, token?_name hx, ← List.cons_append, htake, hdrop]
    rfl
  · by_cases hq : x = '"'
    · subst hq
      rw [token?_quote, token?_quote, hquote rfl]
      rcases hlit : takeLiteral? cs with _ | ⟨body, rest⟩
      · rfl
      · obtain ⟨rfl, -⟩ := takeLiteral?_eq_some hlit
        rw [Option.map_some, Option.bind_some, Option.bind_some]
        cases Json.unquoteChars? ('"' :: body) with
        | none => rfl
        | some text => simp
    · have hx := Bool.eq_false_iff.mpr hx
      have hlength : ∀ n, n ≤ (x :: cs).length → (x :: (cs ++ ds)).drop n = (x :: cs).drop n ++ ds := fun n hn =>
        List.drop_append_of_le_length hn
      by_cases hn : StartsNumber x cs
      · rw [token?_number hx hq hn, token?_number hx hq ((startsNumber_append h).mpr hn), ← List.cons_append,
          takeNumber_append h (List.cons_ne_nil _ _), List.cons_append, hlength _ (takeNumber_isPrefix _).length_le]
        cases Json.readNumber? (takeNumber (x :: cs)) with
        | none => rfl
        | some r => rcases r with ⟨_ | n, _ | ⟨c, cs⟩⟩ <;> rfl
      · have hfind : (Symbol.all.find? fun s => s.text.toList.isPrefixOf (x :: (cs ++ ds))) =
            Symbol.all.find? fun s => s.text.toList.isPrefixOf (x :: cs) := by
          congr 1
          funext s
          exact isPrefixOf_append h s x cs
        rw [token?_symbol hx hq hn, token?_symbol hx hq fun hn' => hn ((startsNumber_append h).mp hn'), hfind]
        cases hs : Symbol.all.find? fun s => s.text.toList.isPrefixOf (x :: cs) with
        | none => rfl
        | some s =>
          have hprefix : s.text.toList.isPrefixOf (x :: cs) = true :=
            List.find?_some (p := fun s : Symbol => s.text.toList.isPrefixOf (x :: cs)) hs
          have hle := (List.isPrefixOf_iff_prefix.mp hprefix).length_le
          rw [String.length_toList] at hle
          rw [Option.map_some, Option.map_some, Option.map_some, hlength _ hle]

/-- A token of a tidy text is read alike before a text that ends it. -/
theorem token?_append (h : Ends ds) (htidy : Tidy (x :: cs)) :
    token? x (x :: cs ++ ds) = (token? x (x :: cs)).map fun r => (r.1, r.2 ++ ds) := by
  refine token?_append_of h fun hx => ?_
  subst hx
  obtain ⟨body, rest, htake⟩ := takeLiteral?_closed htidy.closed fun hn => htidy.line (List.mem_cons_of_mem _ hn)
  rw [htake, Option.map_some, (takeLiteral?_eq_some htake).1, List.append_assoc]
  exact (TakesLiteral.of_takeLiteral? htake).before _

end

/-! ### All tokens -/

theorem readPragma_token? {cs : List Char} {p : SourcePos} :
    (readPragma ⟨cs, p⟩).toOption.map (fun r => (r.1, r.2.rest)) =
      (Pragma.ofLine? (cs.takeWhile (· != '\n'))).map fun p =>
        (Token.pragma p.template, cs.dropWhile (· != '\n')) := by
  unfold readPragma
  dsimp only [Cursor.line, Cursor.takeWhile]
  cases Pragma.ofLine? (cs.takeWhile (· != '\n')) <;> rfl

/-- What the lexer does at the front of a text, given the tokens of the rests. -/
def cutStep (more : Bool → List Char → Cut) (b : Bool) : List Char → Cut
  | [] => .nil
  | x :: cs =>
    if x = '\n' then more true cs
    else if Text.isBlank x then more b cs
    else if x = '/' ∧ cs.head? = some '/' then more b ((x :: cs).dropWhile (· != '\n'))
    else if x = '#' ∧ b = true then
      (Pragma.ofLine? ((x :: cs).takeWhile (· != '\n'))).bind fun p =>
        Cut.one (.pragma p.template) ++ more true ((x :: cs).dropWhile (· != '\n'))
    else (token? x (x :: cs)).bind fun r => Cut.one r.1 ++ more false r.2

theorem dropWhile_line {x : Char} (h : x ≠ '\n') (cs : List Char) :
    ((x :: cs).dropWhile (· != '\n')).length ≤ cs.length := by
  rw [List.dropWhile_cons_of_pos (by simpa using h)]
  exact (List.dropWhile_sublist _).length_le

/-- The tokens of a text that is read in so many steps. -/
def cut : Nat → Bool → List Char → Cut
  | 0, _, cs => if cs.isEmpty then .nil else none
  | fuel + 1, b, cs => cutStep (cut fuel) b cs

theorem cutOf_token (r : Except Found (Token × Cursor)) {more : Cursor → Except Found (List Lexeme)}
    {more' : List Char → Cut} (hm : ∀ d, cutOf (more d) = more' d.rest) (pos : SourcePos) :
    cutOf (r >>= fun x => more x.2 >>= fun ls => pure (⟨x.1, pos⟩ :: ls)) =
      (r.toOption.map fun r => (r.1, r.2.rest)).bind fun r => Cut.one r.1 ++ more' r.2 := by
  cases r with
  | error e => rfl
  | ok x =>
    have hx := hm x.2
    show cutOf (more x.2 >>= fun ls => pure (⟨x.1, pos⟩ :: ls)) = Cut.one x.1 ++ more' x.2.rest
    rw [← hx]
    cases more x.2 <;> rfl

theorem cutOf_readLexemes (fuel : Nat) (b : Bool) (cs : List Char) (p : SourcePos) :
    cutOf (readLexemes fuel b ⟨cs, p⟩) = cut fuel b cs := by
  induction fuel generalizing b cs p with
  | zero =>
    unfold readLexemes cut
    cases cs <;> rfl
  | succ fuel ih =>
    cases cs with
    | nil => rfl
    | cons x cs =>
      rw [cut, cutStep, readLexemes]
      dsimp only
      by_cases hn : x = '\n'
      · rw [if_pos hn, if_pos hn]
        exact ih true cs _
      · rw [if_neg hn, if_neg hn]
        by_cases hb : Text.isBlank x = true
        · rw [if_pos hb, if_pos hb]
          exact ih b cs _
        · rw [if_neg hb, if_neg hb]
          by_cases hc : x = '/' ∧ cs.head? = some '/'
          · rw [if_pos hc, if_pos hc]
            exact ih b _ _
          · rw [if_neg hc, if_neg hc]
            by_cases hp : x = '#' ∧ b = true
            · rw [if_pos hp, if_pos hp]
              have hstep := cutOf_token (readPragma ⟨x :: cs, p⟩) (fun d => ih true d.rest d.pos) p
              rw [readPragma_token?] at hstep
              refine hstep.trans ?_
              cases Pragma.ofLine? ((x :: cs).takeWhile (· != '\n')) <;> rfl
            · rw [if_neg hp, if_neg hp, ← readToken_token? (p := p)]
              exact cutOf_token (readToken x ⟨x :: cs, p⟩) (fun d => ih false d.rest d.pos) p

theorem cutStep_congr {f g : Bool → List Char → Cut} {b : Bool} {cs : List Char}
    (h : ∀ b' rest, rest.length < cs.length → f b' rest = g b' rest) : cutStep f b cs = cutStep g b cs := by
  cases cs with
  | nil => rfl
  | cons x cs =>
    rw [cutStep, cutStep]
    have hcs : ∀ b', f b' cs = g b' cs := fun b' => h b' cs (Nat.lt_succ_self _)
    by_cases hn : x = '\n'
    · rw [if_pos hn, if_pos hn, hcs]
    · have hline : ∀ b', f b' ((x :: cs).dropWhile (· != '\n')) = g b' ((x :: cs).dropWhile (· != '\n')) :=
        fun b' => h b' _ (Nat.lt_succ_of_le (dropWhile_line hn cs))
      rw [if_neg hn, if_neg hn, hcs, hline, hline]
      have htoken : ∀ r, token? x (x :: cs) = some r → f false r.2 = g false r.2 := fun r hr =>
        h false r.2 (token?_length hr)
      cases ht : token? x (x :: cs) with
      | none => rfl
      | some r => rw [Option.bind_some, Option.bind_some, htoken r ht]

theorem cut_eq_cut (n : Nat) : ∀ {cs : List Char} {f g : Nat} (b : Bool), cs.length ≤ n → cs.length ≤ f →
    cs.length ≤ g → cut f b cs = cut g b cs := by
  induction n with
  | zero =>
    intro cs f g b hn _ _
    obtain rfl := List.length_eq_zero_iff.mp (Nat.le_zero.mp hn)
    cases f <;> cases g <;> rfl
  | succ n ih =>
    intro cs f g b hn hf hg
    cases cs with
    | nil => cases f <;> cases g <;> rfl
    | cons x cs =>
      rw [List.length_cons] at hn hf hg
      obtain ⟨f, rfl⟩ := Nat.exists_eq_add_one.mpr (Nat.lt_of_lt_of_le (Nat.succ_pos _) hf)
      obtain ⟨g, rfl⟩ := Nat.exists_eq_add_one.mpr (Nat.lt_of_lt_of_le (Nat.succ_pos _) hg)
      refine cutStep_congr fun b' rest hrest => ?_
      rw [List.length_cons] at hrest
      exact ih b' (by omega) (by omega) (by omega)

theorem tokens?_eq_cut (b : Bool) (cs : List Char) : tokens? b cs = cut cs.length b cs :=
  cutOf_readLexemes cs.length b cs .start

/-- The tokens of a text, from its front on. -/
theorem tokens?_cons (b : Bool) (x : Char) (cs : List Char) : tokens? b (x :: cs) = cutStep tokens? b (x :: cs) := by
  rw [tokens?_eq_cut, List.length_cons, cut]
  refine cutStep_congr fun b' rest hrest => ?_
  rw [tokens?_eq_cut]
  rw [List.length_cons] at hrest
  exact cut_eq_cut cs.length b' (by omega) (by omega) (Nat.le_refl _)

theorem tokens?_nil (b : Bool) : tokens? b [] = .nil := rfl

/-! #### What stands at the front -/

section
variable {b : Bool} {x : Char} {cs ds : List Char}

theorem tokens?_newline (b : Bool) (cs : List Char) : tokens? b ('\n' :: cs) = tokens? true cs := by
  rw [tokens?_cons, cutStep, if_pos rfl]

theorem tokens?_blank (hx : Text.isBlank x = true) (hn : x ≠ '\n') : tokens? b (x :: cs) = tokens? b cs := by
  rw [tokens?_cons, cutStep, if_neg hn, if_pos hx]

theorem tokens?_comment (b : Bool) (cs : List Char) :
    tokens? b ('/' :: '/' :: cs) = tokens? b (cs.dropWhile (· != '\n')) := by
  rw [tokens?_cons, cutStep, if_neg (by decide), if_neg (by decide), if_pos ⟨rfl, rfl⟩]
  rfl

theorem tokens?_pragma (cs : List Char) : tokens? true ('#' :: cs) =
    (Pragma.ofLine? (('#' :: cs).takeWhile (· != '\n'))).bind fun p =>
      Cut.one (.pragma p.template) ++ tokens? true (cs.dropWhile (· != '\n')) := by
  rw [tokens?_cons, cutStep, if_neg (by decide), if_neg (by decide), if_neg (by simp), if_pos ⟨rfl, rfl⟩]
  rfl

theorem tokens?_token (hb : Text.isBlank x = false) (hc : ¬(x = '/' ∧ cs.head? = some '/')) (hp : ¬(x = '#' ∧ b = true)) :
    tokens? b (x :: cs) = (token? x (x :: cs)).bind fun r => Cut.one r.1 ++ tokens? false r.2 := by
  have hn : x ≠ '\n' := by
    rintro rfl
    exact absurd hb (by decide)
  rw [tokens?_cons, cutStep, if_neg hn, if_neg (by simp [hb]), if_neg hc, if_neg hp]

/-- A text that ends all tokens is read alike on a new line. -/
theorem Ends.tokens? (h : Ends ds) (b b' : Bool) : tokens? b ds = tokens? b' ds := by
  cases ds with
  | nil => rfl
  | cons d ds =>
    rcases h d rfl with rfl | rfl | rfl
    · rw [tokens?_token (by decide) (by simp) (by simp), tokens?_token (by decide) (by simp) (by simp)]
    · rw [tokens?_token (by decide) (by simp) (by simp), tokens?_token (by decide) (by simp) (by simp)]
    · rw [tokens?_newline, tokens?_newline]

/-- The tokens of a tidy text before a text that ends them. -/
theorem tokens?_append (htidy : Tidy cs) (h : Ends ds) : tokens? false (cs ++ ds) = tokens? false cs ++ tokens? true ds := by
  induction hlen : cs.length using Nat.strongRecOn generalizing cs with
  | ind n ih =>
    subst hlen
    cases cs with
    | nil =>
      rw [tokens?_nil, Cut.nil_append]
      exact h.tokens? false true
    | cons x cs =>
      by_cases hb : Text.isBlank x = true
      · have hn : x ≠ '\n' := by
          rintro rfl
          exact htidy.line List.mem_cons_self
        have hx : Spot.code.after [x] = .code := Spot.after_code fun hq => by
          cases List.mem_singleton.mp hq
          exact absurd hb (by decide)
        have hrest : Tidy cs := Tidy.rest htidy hx
        rw [List.cons_append, tokens?_blank hb hn, tokens?_blank hb hn]
        exact ih cs.length (Nat.lt_succ_self _) hrest rfl
      · have hb := Bool.eq_false_iff.mpr hb
        -- A slash at the front does not start a comment, neither in the code nor with what stands behind it.
        have hc : ∀ es, (cs ++ es).head? = some '/' → x = '/' → Ends es → False := by
          intro es hhead hx hes
          subst hx
          cases cs with
          | nil =>
            rcases hes _ hhead with h | h | h <;> exact absurd h (by decide)
          | cons c cs =>
            cases hhead
            exact absurd htidy.comment (by simp [hasComment])
        have hnil : Ends [] := fun _ h => nomatch h
        rw [List.cons_append, tokens?_token hb (fun hx => hc ds hx.2 hx.1 h) (by simp), ← List.cons_append,
          token?_append h htidy,
          tokens?_token hb (fun hx => hc [] (by rw [List.append_nil]; exact hx.2) hx.1 hnil) (by simp)]
        cases ht : token? x (x :: cs) with
        | none => rfl
        | some r =>
          obtain ⟨lex, hfirst⟩ := FirstToken.of_token? ht
          have hrest : Tidy r.2 := Tidy.rest (hfirst.split ▸ htidy) hfirst.after_eq
          rw [Option.map_some, Option.bind_some, Option.bind_some, ih _ (token?_length ht) hrest rfl, Cut.append_assoc]

/-- Up to the end of a line the tokens of a text do not depend on what follows, unless a backslash stands there. -/
theorem tokens?_line (h : cs.getLast? ≠ some '\\') (b : Bool) (ds : List Char) :
    tokens? b (cs ++ '\n' :: ds) = tokens? b cs ++ tokens? true ds := by
  have hends : Ends ('\n' :: ds) := by
    rintro _ ⟨⟩
    exact .inr (.inr rfl)
  induction hlen : cs.length using Nat.strongRecOn generalizing b cs with
  | ind n ih =>
    subst hlen
    cases cs with
    | nil =>
      rw [tokens?_nil, Cut.nil_append]
      exact tokens?_newline b ds
    | cons x cs =>
      -- A rest of the line ends as the line does, so that no literal reaches beyond it.
      have hsuffix : ∀ {us vs : List Char}, x :: cs = us ++ vs → vs.getLast? ≠ some '\\' := by
        intro us vs huv hlast
        refine h ?_
        rw [huv, List.getLast?_append, hlast]
        rfl
      have hcs : ∀ b, tokens? b (cs ++ '\n' :: ds) = tokens? b cs ++ tokens? true ds := fun b =>
        ih cs.length (Nat.lt_succ_self _) (@hsuffix [x] cs rfl) b rfl
      have hhead : (cs ++ '\n' :: ds).head? = some '/' ↔ cs.head? = some '/' := by
        cases cs with
        | nil => exact ⟨fun h => absurd (Option.some.inj h) (by decide), nofun⟩
        | cons c cs => rfl
      have hline : ∀ c ∈ ('\n' :: ds).head?, (c != '\n') = false := by
        rintro _ ⟨⟩
        rfl
      obtain ⟨htake, hdrop⟩ := takeWhile_append_of_head hline (x :: cs)
      rw [List.cons_append] at htake hdrop
      by_cases hn : x = '\n'
      · subst hn
        rw [List.cons_append, tokens?_newline, tokens?_newline]
        exact hcs true
      have hrest : ∀ b, tokens? b ((x :: cs).dropWhile (· != '\n') ++ '\n' :: ds) =
          tokens? b ((x :: cs).dropWhile (· != '\n')) ++ tokens? true ds := fun b =>
        ih _ (Nat.lt_succ_of_le (dropWhile_line hn cs)) (hsuffix List.takeWhile_append_dropWhile.symm) b rfl
      rw [List.cons_append, tokens?_cons, tokens?_cons, cutStep, cutStep, if_neg hn, if_neg hn]
      by_cases hb : Text.isBlank x = true
      · rw [if_pos hb, if_pos hb, hcs]
      rw [if_neg hb, if_neg hb]
      by_cases hc : x = '/' ∧ cs.head? = some '/'
      · rw [if_pos hc, if_pos ⟨hc.1, hhead.mpr hc.2⟩, hdrop, hrest]
      rw [if_neg hc, if_neg fun hc' => hc ⟨hc'.1, hhead.mp hc'.2⟩]
      by_cases hp : x = '#' ∧ b = true
      · rw [if_pos hp, if_pos hp, htake, hdrop, hrest]
        cases Pragma.ofLine? ((x :: cs).takeWhile (· != '\n')) with
        | none => rfl
        | some p => rw [Option.bind_some, Option.bind_some, Cut.append_assoc]
      rw [if_neg hp, if_neg hp, ← List.cons_append,
        token?_append_of hends fun _ => takeLiteral?_line (@hsuffix [x] cs rfl) ds]
      cases ht : token? x (x :: cs) with
      | none => rfl
      | some r =>
        obtain ⟨lex, hfirst⟩ := FirstToken.of_token? ht
        rw [Option.map_some, Option.bind_some, Option.bind_some, Cut.append_assoc,
          ih _ (token?_length ht) (hsuffix hfirst.split) false rfl]

end

/-! #### How a text is split -/

/-- The text is split into the tokens: something stands at its front, a token or what is passed over, and then the rest. -/
inductive Lexes : Bool → List Char → List Token → Prop
  | nil {b : Bool} : Lexes b [] []
  | newline {b : Bool} {cs : List Char} {ts : List Token} (h : Lexes true cs ts) : Lexes b ('\n' :: cs) ts
  | blank {b : Bool} {x : Char} {cs : List Char} {ts : List Token} (hb : Text.isBlank x = true) (hn : x ≠ '\n')
      (h : Lexes b cs ts) : Lexes b (x :: cs) ts
  | comment {b : Bool} {cs : List Char} {ts : List Token} (h : Lexes b (cs.dropWhile (· != '\n')) ts) :
      Lexes b ('/' :: '/' :: cs) ts
  | pragma {cs : List Char} {p : Pragma} {ts : List Token}
      (hp : Pragma.ofLine? (('#' :: cs).takeWhile (· != '\n')) = some p)
      (h : Lexes true (cs.dropWhile (· != '\n')) ts) : Lexes true ('#' :: cs) (.pragma p.template :: ts)
  | token {b : Bool} {x : Char} {cs rest : List Char} {t : Token} {ts : List Token} (hb : Text.isBlank x = false)
      (hc : ¬(x = '/' ∧ cs.head? = some '/')) (hp : ¬(x = '#' ∧ b = true)) (ht : token? x (x :: cs) = some (t, rest))
      (h : Lexes false rest ts) : Lexes b (x :: cs) (t :: ts)

theorem lexes_of_tokens? {b : Bool} {cs : List Char} {ts : List Token} (h : tokens? b cs = some ts) : Lexes b cs ts := by
  -- On the length of the text, for a comment and a pragma reach to the end of their line.
  induction hlen : cs.length using Nat.strongRecOn generalizing b cs ts with
  | ind n ih =>
    subst hlen
    cases cs with
    | nil =>
      cases h
      exact .nil
    | cons x cs =>
      have hline : (cs.dropWhile (· != '\n')).length < (x :: cs).length :=
        Nat.lt_succ_of_le (List.dropWhile_sublist _).length_le
      by_cases hn : x = '\n'
      · subst hn
        rw [tokens?_newline] at h
        exact .newline (ih _ (Nat.lt_succ_self _) h rfl)
      by_cases hb : Text.isBlank x = true
      · rw [tokens?_blank hb hn] at h
        exact .blank hb hn (ih _ (Nat.lt_succ_self _) h rfl)
      by_cases hc : x = '/' ∧ cs.head? = some '/'
      · obtain ⟨rfl, hhead⟩ := hc
        obtain ⟨c, cs, rfl⟩ : ∃ c ds, cs = c :: ds := by
          cases cs with
          | nil => cases hhead
          | cons c ds => exact ⟨c, ds, rfl⟩
        cases hhead
        rw [tokens?_comment] at h
        refine .comment (ih _ ?_ h rfl)
        exact Nat.lt_succ_of_le (Nat.le_succ_of_le (List.dropWhile_sublist _).length_le)
      by_cases hp : x = '#' ∧ b = true
      · obtain ⟨rfl, rfl⟩ := hp
        rw [tokens?_pragma] at h
        obtain ⟨p, hp, h⟩ := Option.bind_eq_some_iff.mp h
        obtain ⟨_, us, hone, hus, rfl⟩ := Cut.append_eq_some.mp h
        cases hone
        exact .pragma hp (ih _ hline hus rfl)
      · have hb := Bool.eq_false_iff.mpr hb
        rw [tokens?_token hb hc hp] at h
        obtain ⟨⟨t, rest⟩, ht, h⟩ := Option.bind_eq_some_iff.mp h
        obtain ⟨_, us, hone, hus, rfl⟩ := Cut.append_eq_some.mp h
        cases hone
        exact .token hb hc hp ht (ih _ (token?_length ht) hus rfl)

end Stencil.Unit
