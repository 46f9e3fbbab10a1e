import Stencil.Proofs.Unit.Lexing

/-! Code on one line.

Writing code on one line turns its line breaks into blanks. No token holds a line break, so the tokens stay the same,
unless a line break ends a comment. -/

namespace Stencil.Unit

open Markup (Spot)
open Line (oneLine)

/-- The character is no line break. -/
def NoBreak (c : Char) : Prop := c ≠ '\r' ∧ c ≠ '\n'

theorem oneLine_of_noBreak {c : Char} (h : NoBreak c) : oneLine c = c := by
  rw [oneLine, if_neg (not_or.mpr h)]

theorem map_oneLine_of_noBreak {cs : List Char} (h : ∀ c ∈ cs, NoBreak c) : cs.map oneLine = cs :=
  (List.map_congr_left fun c hc => oneLine_of_noBreak (h c hc)).trans (List.map_id' _)

/-- What does not tell line breaks from blanks does not tell code from code on one line. -/
theorem oneLine_eq {α : Type} {p : Char → α} (hr : p '\r' = p ' ') (hn : p '\n' = p ' ') (c : Char) :
    p (oneLine c) = p c := by
  unfold oneLine
  split
  · rename_i h
    rcases h with rfl | rfl
    · exact hr.symm
    · exact hn.symm
  · rfl

/-! ### Literals and comments -/

theorem spot_next_oneLine (s : Spot) (c : Char) : s.next (oneLine c) = s.next c := by
  cases s <;> exact oneLine_eq (p := Spot.next _) rfl rfl c

theorem spot_after_oneLine (s : Spot) (cs : List Char) : s.after (cs.map oneLine) = s.after cs := by
  induction cs generalizing s with
  | nil => rfl
  | cons c cs ih => rw [List.map_cons, Spot.after_cons, Spot.after_cons, spot_next_oneLine, ih]

theorem hasComment_oneLine (s : Spot) (cs : List Char) : hasComment s (cs.map oneLine) = hasComment s cs := by
  have hslash := oneLine_eq (p := (· == '/')) rfl rfl
  induction cs generalizing s with
  | nil => rfl
  | cons c cs ih =>
    have hhead : ((cs.map oneLine).head? == some '/') = (cs.head? == some '/') := by
      cases cs with
      | nil => rfl
      | cons d ds => exact hslash d
    rw [List.map_cons, hasComment, hasComment, spot_next_oneLine, ih, hslash, hhead]

/-- Closed code without comments is tidy once it stands on one line. -/
theorem tidy_oneLine {cs : List Char} (h : Markup.Closed cs) (hc : hasComment .code cs = false) :
    Tidy (cs.map oneLine) where
  closed := by
    rw [spot_after_oneLine]
    exact (spot_of_after? h).symm
  comment := by rw [hasComment_oneLine, hc]
  line hn := by
    obtain ⟨c, -, hc⟩ := List.mem_map.mp hn
    exact Line.oneLine_ne_newline c hc

/-! ### What tokens hold -/

theorem takeWhile_oneLine {p : Char → Bool} (hr : p '\r' = p ' ') (hn : p '\n' = p ' ') (cs : List Char) :
    (cs.map oneLine).takeWhile p = (cs.takeWhile p).map oneLine ∧
      (cs.map oneLine).dropWhile p = (cs.dropWhile p).map oneLine := by
  induction cs with
  | nil => exact ⟨rfl, rfl⟩
  | cons c cs ih =>
    rw [List.map_cons, List.takeWhile_cons, List.takeWhile_cons, List.dropWhile_cons, List.dropWhile_cons,
      oneLine_eq hr hn c]
    cases p c with
    | true => exact ⟨congrArg (oneLine c :: ·) ih.1, ih.2⟩
    | false => exact ⟨rfl, rfl⟩

/-- Characters of a kind that blanks do not have are no line breaks. -/
theorem noBreak_of_takeWhile {p : Char → Bool} (hr : p '\r' = false) (hn : p '\n' = false) {cs : List Char} :
    ∀ c ∈ cs.takeWhile p, NoBreak c := by
  intro c hc
  have := List.all_eq_true.mp List.all_takeWhile c hc
  constructor <;> rintro rfl
  · exact Bool.false_ne_true (hr.symm.trans this)
  · exact Bool.false_ne_true (hn.symm.trans this)

theorem takeDigits_oneLine (cs : List Char) : (cs.map oneLine).takeWhile Char.isDigit = cs.takeWhile Char.isDigit := by
  rw [(takeWhile_oneLine rfl rfl cs).1, map_oneLine_of_noBreak (noBreak_of_takeWhile rfl rfl)]

theorem pointDigits_oneLine (cs : List Char) : pointDigits (cs.map oneLine) = pointDigits cs := by
  rcases cs with _ | ⟨c, _ | ⟨d, cs⟩⟩
  · rfl
  · rfl
  · have hdot : (oneLine c = '.') = (c = '.') := oneLine_eq (p := (· = '.')) (by simp) (by simp) c
    have hdigit : (oneLine d).isDigit = d.isDigit := oneLine_eq rfl rfl d
    have hdigits := takeDigits_oneLine (d :: cs)
    rw [List.map_cons] at hdigits
    rw [List.map_cons, List.map_cons, pointDigits, pointDigits, hdigits]
    simp only [hdot, hdigit]

theorem takeDecimal_oneLine (cs : List Char) : takeDecimal (cs.map oneLine) = takeDecimal cs := by
  rw [takeDecimal, takeDigits_oneLine, (takeWhile_oneLine rfl rfl cs).2, pointDigits_oneLine, takeDecimal]

theorem takeNumber_oneLine (cs : List Char) : takeNumber (cs.map oneLine) = takeNumber cs := by
  cases cs with
  | nil => rfl
  | cons c cs =>
    by_cases hc : c = '-'
    · rw [hc, List.map_cons, show oneLine '-' = '-' from rfl, takeNumber_minus, takeNumber_minus, takeDecimal_oneLine]
    · have hhead : (oneLine c = '-') = (c = '-') := oneLine_eq (p := (· = '-')) (by simp) (by simp) c
      have hne : (c :: cs).head? ≠ some '-' := fun h => hc (Option.some.inj h)
      have hne' : ((c :: cs).map oneLine).head? ≠ some '-' := fun h => hc (hhead.mp (Option.some.inj h))
      rw [takeNumber_of_ne hne, takeNumber_of_ne hne', takeDecimal_oneLine]

theorem isPrefixOf_oneLine {text : List Char} (ht : ∀ c ∈ text, c ≠ '\r' ∧ c ≠ '\n' ∧ c ≠ ' ') (cs : List Char) :
    text.isPrefixOf (cs.map oneLine) = text.isPrefixOf cs := by
  induction text generalizing cs with
  | nil => rfl
  | cons t text ih =>
    cases cs with
    | nil => rfl
    | cons c cs =>
      obtain ⟨hr, hn, hb⟩ := ht t List.mem_cons_self
      have hc : (t == oneLine c) = (t == c) := by
        refine oneLine_eq (p := (t == ·)) ?_ ?_ c
        · rw [beq_eq_false_iff_ne.mpr hr, beq_eq_false_iff_ne.mpr hb]
        · rw [beq_eq_false_iff_ne.mpr hn, beq_eq_false_iff_ne.mpr hb]
      rw [List.map_cons, List.isPrefixOf, List.isPrefixOf, hc, ih fun c hc => ht c (List.mem_cons_of_mem _ hc)]

/-! ### Literals that are read hold no line breaks -/

theorem noBreak_of_hexValue? {c : Char} {n : Nat} (h : Text.hexValue? c = some n) : NoBreak c := by
  constructor <;> rintro rfl <;> cases h

theorem noBreak_of_hexUnit? {a b c d : Char} {n : Nat} (h : Json.hexUnit? a b c d = some n) :
    NoBreak a ∧ NoBreak b ∧ NoBreak c ∧ NoBreak d := by
  obtain ⟨_, ha, h⟩ := Option.bind_eq_some_iff.mp h
  obtain ⟨_, hb, h⟩ := Option.bind_eq_some_iff.mp h
  obtain ⟨_, hc, h⟩ := Option.bind_eq_some_iff.mp h
  obtain ⟨_, hd, -⟩ := Option.bind_eq_some_iff.mp h
  exact ⟨noBreak_of_hexValue? ha, noBreak_of_hexValue? hb, noBreak_of_hexValue? hc, noBreak_of_hexValue? hd⟩

theorem readUnits_noBreak {cs rest : List Char} {us : List Nat} (h : Json.readUnits cs = some (us, rest)) :
    ∃ taken, cs = taken ++ rest ∧ ∀ c ∈ taken, NoBreak c := by
  induction cs using Json.readUnits.induct generalizing us with
  | case1 => cases h
  | case2 cs =>
    cases h
    refine ⟨['"'], rfl, ?_⟩
    rintro _ (_ | ⟨_, ⟨⟩⟩)
    exact ⟨by decide, by decide⟩
  | case3 a b c d cs ih =>
    rw [Json.readUnits] at h
    obtain ⟨n, hn, h⟩ := Option.bind_eq_some_iff.mp h
    obtain ⟨⟨vs, rest'⟩, hr, h⟩ := Option.bind_eq_some_iff.mp h
    cases h
    obtain ⟨taken, rfl, ht⟩ := ih hr
    obtain ⟨ha, hb, hc, hd⟩ := noBreak_of_hexUnit? hn
    refine ⟨'\\' :: 'u' :: a :: b :: c :: d :: taken, rfl, ?_⟩
    simp only [List.forall_mem_cons]
    exact ⟨⟨by decide, by decide⟩, ⟨by decide, by decide⟩, ha, hb, hc, hd, ht⟩
  | case4 e cs hu ih =>
    rw [Json.readUnits.eq_4 e cs hu] at h
    obtain ⟨x, hx, h⟩ := Option.bind_eq_some_iff.mp h
    obtain ⟨⟨vs, rest'⟩, hr, h⟩ := Option.bind_eq_some_iff.mp h
    cases h
    obtain ⟨taken, rfl, ht⟩ := ih hr
    refine ⟨'\\' :: e :: taken, rfl, ?_⟩
    simp only [List.forall_mem_cons]
    refine ⟨⟨by decide, by decide⟩, ?_, ht⟩
    constructor <;> rintro rfl <;> cases hx
  | case5 c cs hq hu hb hstop =>
    rw [Json.readUnits.eq_5 c cs hq hu hb, if_pos hstop] at h
    cases h
  | case6 c cs hq hu hb hstop ih =>
    rw [Json.readUnits.eq_5 c cs hq hu hb, if_neg hstop] at h
    obtain ⟨⟨vs, rest'⟩, hr, h⟩ := Option.bind_eq_some_iff.mp h
    cases h
    obtain ⟨taken, rfl, ht⟩ := ih hr
    refine ⟨c :: taken, rfl, List.forall_mem_cons.mpr ⟨?_, ht⟩⟩
    constructor <;> rintro rfl <;> exact hstop (.inl (by decide))

theorem noBreak_of_unquoteChars? {body text : List Char} (h : Json.unquoteChars? ('"' :: body) = some text) :
    ∀ c ∈ body, NoBreak c := by
  unfold Json.unquoteChars? at h
  split at h
  · rename_i rest heq
    cases heq
    split at h
    · rename_i hl
      obtain ⟨⟨us, rest⟩, hr, hl⟩ := Option.bind_eq_some_iff.mp hl
      obtain ⟨cs, -, hl⟩ := Option.bind_eq_some_iff.mp hl
      cases hl
      obtain ⟨taken, hbody, ht⟩ := readUnits_noBreak hr
      rw [hbody, List.append_nil]
      exact ht
    · cases h
  · cases h

theorem takeLiteral?_oneLine {cs body rest : List Char} (h : takeLiteral? cs = some (body, rest))
    (hb : ∀ c ∈ body, NoBreak c) (ds : List Char) :
    takeLiteral? (cs.map oneLine ++ ds) = some (body, rest.map oneLine ++ ds) := by
  obtain ⟨rfl, -⟩ := takeLiteral?_eq_some h
  rw [List.map_append, map_oneLine_of_noBreak hb, List.append_assoc]
  exact (TakesLiteral.of_takeLiteral? h).before _

theorem hasComment_plain {cs rest : List Char} (hs : '/' ∉ cs) (hq : '"' ∉ cs) :
    hasComment .code (cs ++ rest) = hasComment .code rest := by
  induction cs with
  | nil => rfl
  | cons c cs ih =>
    simp only [List.mem_cons, not_or] at hs hq
    rw [List.cons_append, hasComment, Spot.next, if_neg (Ne.symm hq.1), ih hs.2 hq.2]
    simp [Ne.symm hs.1]

theorem hasComment_literal {cs body rest : List Char} (h : takeLiteral? cs = some (body, rest)) :
    hasComment .literal cs = hasComment .code rest := by
  have htakes := TakesLiteral.of_takeLiteral? h
  clear h
  induction htakes with
  | quote => rfl
  | escape _ _ ih => exact ih
  | plain _ hq hb _ ih =>
    rw [hasComment, Spot.next, if_neg hb, if_neg hq, ih]
    rfl

theorem hasComment_blank {x : Char} (hb : Text.isBlank x = true) (cs : List Char) :
    hasComment .code (x :: cs) = hasComment .code cs := by
  refine @hasComment_plain [x] cs (fun h => ?_) fun h => ?_ <;> cases List.mem_singleton.mp h <;>
    exact absurd hb (by decide)

/-! ### Tokens -/

section
variable {b b' : Bool} {x : Char} {cs ds rest : List Char} {t : Token} {ts : List Token}

theorem startsNumber_oneLine : StartsNumber x (cs.map oneLine) ↔ StartsNumber x cs := by
  unfold StartsNumber
  cases cs with
  | nil => rfl
  | cons c cs =>
    have hdigit : (oneLine c).isDigit = c.isDigit := oneLine_eq rfl rfl c
    rw [List.map_cons, List.head?_cons, List.head?_cons, Option.any_some, Option.any_some, hdigit]

/-- A token holds no line break, so it is read alike on one line. -/
theorem token?_oneLine (hx : NoBreak x) (h : token? x (x :: cs) = some (t, rest)) :
    token? x (x :: cs.map oneLine) = some (t, rest.map oneLine) := by
  have hmap : x :: cs.map oneLine = (x :: cs).map oneLine := by rw [List.map_cons, oneLine_of_noBreak hx]
  have hdrop : ∀ n, (x :: cs.map oneLine).drop n = ((x :: cs).drop n).map oneLine := fun n => by rw [hmap, List.map_drop]
  obtain ⟨lex, hfirst⟩ := FirstToken.of_token? h
  cases hfirst with
  | name hname =>
    obtain ⟨htake, hrest⟩ := takeWhile_oneLine (p := Text.isNameChar) rfl rfl (x :: cs)
    rw [token?_name hname, hmap, htake, hrest, map_oneLine_of_noBreak (noBreak_of_takeWhile rfl rfl)]
  | @literal body _ _ hq hlit htext =>
    subst hq
    have hflat := takeLiteral?_oneLine hlit (noBreak_of_unquoteChars? htext) []
    rw [List.append_nil, List.append_nil] at hflat
    obtain ⟨rfl, -⟩ := takeLiteral?_eq_some hlit
    rw [token?_quote, hflat, Option.bind_some]
    dsimp only
    rw [htext, Option.map_some, ← List.map_drop, List.drop_left]
  | number hname hq hn hread =>
    rw [token?_number hname hq (startsNumber_oneLine.mpr hn), hdrop, hmap, takeNumber_oneLine, hread, Option.bind_some]
  | symbol hname hq hn hs =>
    have hfind : (Symbol.all.find? fun s => s.text.toList.isPrefixOf (x :: cs.map oneLine)) =
        Symbol.all.find? fun s => s.text.toList.isPrefixOf (x :: cs) := by
      congr 1
      funext s
      rw [hmap]
      exact isPrefixOf_oneLine (List.all_iff_forall_prop.mp (by cases s <;> decide)) (x :: cs)
    rw [token?_symbol hname hq fun hn' => hn (startsNumber_oneLine.mp hn'), hfind, hs, Option.map_some, hdrop]

/-- A token is read alike on one line, before a text that ends it. -/
theorem token?_flat (hx : NoBreak x) (hds : Ends ds) (h : token? x (x :: cs) = some (t, rest)) :
    token? x (x :: (cs.map oneLine ++ ds)) = some (t, rest.map oneLine ++ ds) := by
  rw [← List.cons_append, token?_append_of hds, token?_oneLine hx h, Option.map_some]
  rintro rfl
  obtain ⟨lex, hfirst⟩ := FirstToken.of_token? h
  cases hfirst with
  | name hname => cases hname
  | literal _ hlit htext =>
    have hflat := takeLiteral?_oneLine hlit (noBreak_of_unquoteChars? htext)
    have hself := hflat []
    rw [List.append_nil, List.append_nil] at hself
    rw [hflat, hself, Option.map_some]
  | number _ hq _ _ | symbol _ hq _ _ => exact absurd rfl hq

/-- No comment starts in a token. -/
theorem hasComment_token (h : token? x (x :: cs) = some (t, rest)) :
    hasComment .code (x :: cs) = hasComment .code rest := by
  obtain ⟨lex, hfirst⟩ := FirstToken.of_token? h
  rw [hfirst.split]
  cases hfirst with
  | name _ =>
    have hall : ∀ c ∈ (x :: cs).takeWhile Text.isNameChar, Text.isNameChar c = true := List.all_eq_true.mp List.all_takeWhile
    exact hasComment_plain (fun hs => absurd (hall _ hs) (by decide)) fun hq => absurd (hall _ hq) (by decide)
  | literal _ hlit _ =>
    obtain ⟨rfl, -⟩ := takeLiteral?_eq_some hlit
    rw [List.cons_append, hasComment, show Spot.code.next '"' = .literal from rfl, hasComment_literal hlit]
    simp
  | number _ _ _ _ =>
    refine hasComment_plain (fun hs => ?_) (quote_not_mem_takeNumber _)
    rcases mem_takeNumber hs with h | h | h <;> exact absurd h (by decide)
  | @symbol s _ _ _ _ => exact hasComment_plain (by cases s <;> decide) (by cases s <;> decide)

theorem token?_hash (cs : List Char) : token? '#' ('#' :: cs) = none := by
  have hn : ¬StartsNumber '#' cs := by simp [StartsNumber]
  rw [token?_symbol (by decide) (by decide) hn, Option.map_eq_none_iff, List.find?_eq_none]
  intro s _
  cases s <;> simp [Symbol.text]

/-! ### Texts -/

theorem tokens?_oneLine_blank (hb : Text.isBlank x = true) (cs : List Char) :
    tokens? b (oneLine x :: cs) = tokens? b cs := by
  refine tokens?_blank ?_ (Line.oneLine_ne_newline x)
  rwa [oneLine_eq (p := Text.isBlank) (by decide) (by decide)]

/-- A token at the front stands there on one line as well. -/
theorem tokens?_oneLine_token (hds : Ends ds) (hb : Text.isBlank x = false)
    (hc : ¬(x = '/' ∧ cs.head? = some '/')) (ht : token? x (x :: cs) = some (t, rest)) :
    tokens? b ((x :: cs).map oneLine ++ ds) = Cut.one t ++ tokens? false (rest.map oneLine ++ ds) := by
  have hx : NoBreak x := by
    constructor <;> rintro rfl <;> exact absurd hb (by decide)
  have hc' : ¬(x = '/' ∧ (cs.map oneLine ++ ds).head? = some '/') := by
    rintro ⟨rfl, hhead⟩
    cases cs with
    | nil => rcases hds _ hhead with h | h | h <;> cases h
    | cons d cs =>
      have hslash := oneLine_eq (p := (· == '/')) rfl rfl d
      refine hc ⟨rfl, ?_⟩
      simpa [Option.some.inj hhead] using hslash
  have hp : ¬(x = '#' ∧ b = true) := by
    rintro ⟨rfl, -⟩
    rw [token?_hash] at ht
    cases ht
  rw [List.map_cons, oneLine_of_noBreak hx, List.cons_append, tokens?_token hb hc' hp, token?_flat hx hds ht,
    Option.bind_some]

/-- Code without comments and pragmas has the same tokens on one line, before a text that ends them. -/
theorem Lexes.flat (h : Lexes b cs ts) (hc : hasComment .code cs = false) (hp : ∀ p, Token.pragma p ∉ ts) (hds : Ends ds) :
    tokens? b' (cs.map oneLine ++ ds) = Cut.all ts ++ tokens? true ds := by
  induction h generalizing b' with
  | nil =>
    rw [List.map_nil, List.nil_append, hds.tokens? b' true]
    exact (Cut.nil_append _).symm
  | newline _ ih => exact (tokens?_oneLine_blank (by decide) _).trans (ih hc hp)
  | blank hb _ _ ih =>
    rw [hasComment_blank hb] at hc
    exact (tokens?_oneLine_blank hb _).trans (ih hc hp)
  | comment => cases hc
  | pragma => exact absurd List.mem_cons_self (hp _)
  | @token b x cs rest t ts hb hslash _ ht _ ih =>
    rw [hasComment_token ht] at hc
    rw [tokens?_oneLine_token hds hb hslash ht, ih hc fun p hmem => hp p (List.mem_cons_of_mem _ hmem), ← Cut.append_assoc]
    rfl

/-- Code without comments and pragmas has the same tokens on one line. -/
theorem tokens?_oneLine (h : tokens? b cs = some ts) (hc : hasComment .code cs = false) (hp : ∀ p, Token.pragma p ∉ ts) :
    tokens? false (cs.map oneLine) = some ts := by
  have hflat : tokens? false (cs.map oneLine ++ []) = Cut.all ts ++ tokens? true [] :=
    (lexes_of_tokens? h).flat hc hp fun _ hd => nomatch hd
  rw [List.append_nil, tokens?_nil] at hflat
  rw [hflat]
  exact congrArg some (List.append_nil ts)

end

end Stencil.Unit
