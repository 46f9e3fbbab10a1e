import Stencil.Proofs.Unit.OneLine
import Stencil.Proofs.Unit.Nesting

/-! Code on one line, with a symbol behind it.

Embedded code is written on one line and closed with a semicolon or a parenthesis. Its line breaks do no harm, for no token
holds one. A comment does: on one line it takes everything behind it along, and with that the symbol that closes the code.
A pragma does as well, for it is only read at the start of a line. -/

namespace Stencil.Unit

open Line (oneLine)

/-! ### Pragmas -/

section
variable {cs : List Char} {c : Char}

theorem getLast?_trim (h : cs.getLast? = some c) (hb : Text.isBlank c = false) : (Text.trim cs).getLast? = some c := by
  obtain ⟨ds, rfl⟩ := List.getLast?_eq_some_iff.mp h
  have hstart : Text.trimStart (ds ++ [c]) = Text.trimStart ds ++ [c] := by
    unfold Text.trimStart
    induction ds with
    | nil => simp [hb]
    | cons d ds ih =>
      rw [List.cons_append, List.dropWhile_cons, List.dropWhile_cons]
      split
      · exact ih (by simp)
      · rfl
  rw [Text.trim, hstart, Text.trimEnd, List.reverse_append]
  simp [hb]

theorem readCount?_eq_none (h : cs.getLast? = some c) (hd : c.isDigit = false) (hp : c ≠ '+') : Text.readCount? cs = none := by
  have hdigits : ((Text.dropStart? ['+'] cs).getD cs).getLast? = some c := by
    unfold Text.dropStart?
    split
    · rename_i hplus
      obtain ⟨ds, rfl⟩ := List.isPrefixOf_iff_prefix.mp hplus
      cases ds with
      | nil => exact absurd (Option.some.inj h).symm hp
      | cons d ds => simpa using h
    · exact h
  rw [Text.readCount?]
  dsimp only
  refine if_pos (.inr fun hall => ?_)
  rw [List.all_eq_true.mp hall c (List.mem_of_getLast? hdigits)] at hd
  cases hd

/-- A line that ends with a character which is no part of a place is no pragma. -/
theorem ofLine?_eq_none (h : cs.getLast? = some c) (hb : Text.isBlank c = false) (hd : c.isDigit = false) (hp : c ≠ '+')
    (ha : c ≠ '@') : Pragma.ofLine? cs = none := by
  rw [Option.eq_none_iff_forall_ne_some]
  intro p hline
  obtain ⟨rest, hrest, hline⟩ := Option.bind_eq_some_iff.mp hline
  obtain ⟨⟨place, column⟩, hcut, hline⟩ := Option.bind_eq_some_iff.mp hline
  obtain ⟨_, -, hline⟩ := Option.bind_eq_some_iff.mp hline
  obtain ⟨_, -, hline⟩ := Option.bind_eq_some_iff.mp hline
  obtain ⟨_, -, hline⟩ := Option.bind_eq_some_iff.mp hline
  obtain ⟨n, hn, -⟩ := Option.bind_eq_some_iff.mp hline
  have hlast := getLast?_trim h hb
  unfold Text.dropStart? at hrest
  split at hrest
  · rename_i hstart
    obtain ⟨_, htrim⟩ := List.isPrefixOf_iff_prefix.mp hstart
    cases hrest
    rw [← htrim] at hlast hcut
    rw [List.drop_left] at hcut
    rw [Text.eq_of_cut? hcut, ← List.append_assoc, ← List.append_assoc] at hlast
    cases hcolumn : column.getLast? with
    | none =>
      rw [List.getLast?_eq_none_iff.mp hcolumn, List.append_nil, List.getLast?_append] at hlast
      exact ha (Option.some.inj hlast).symm
    | some d =>
      rw [List.getLast?_append, hcolumn, Option.some_or] at hlast
      cases hlast
      rw [readCount?_eq_none (getLast?_trim hcolumn hb) hd hp] at hn
      cases hn
  · cases hrest

end

/-! ### All tokens -/

section
variable {b b' : Bool} {x c : Char} {cs rest : List Char} {t : Token} {ts us : List Token}

theorem ends_of_close (hd : c = ';' ∨ c = ')') : Ends [c] := by
  rintro _ ⟨⟩
  exact hd.imp id .inl

/-- A line that starts like a pragma and ends with a symbol that closes code is neither a pragma nor anything else. -/
theorem tokens?_hash (hd : c = ';' ∨ c = ')') (hn : '\n' ∉ cs) : tokens? b ('#' :: (cs ++ [c])) = none := by
  have hlast : ('#' :: (cs ++ [c])).getLast? = some c := by simp [List.getLast?_cons]
  have hnone : Pragma.ofLine? ('#' :: (cs ++ [c])) = none := by
    refine ofLine?_eq_none hlast ?_ ?_ ?_ ?_ <;> rcases hd with rfl | rfl <;> decide
  have hwhole : ('#' :: (cs ++ [c])).takeWhile (· != '\n') = '#' :: (cs ++ [c]) := by
    refine List.takeWhile_eq_self_iff.mpr fun d hmem => bne_iff_ne.mpr ?_
    rintro rfl
    rcases hd with rfl | rfl <;> simp [hn] at hmem
  cases b with
  | false =>
    rw [@tokens?_token false '#' (cs ++ [c]) (by decide) (fun h => absurd h.1 (by decide)) fun h =>
      Bool.false_ne_true h.2, token?_hash]
    rfl
  | true =>
    rw [tokens?_pragma, hwhole, hnone]
    rfl

/-- Of code with a comment or a pragma, nothing is read from there on if it stands on one line. -/
theorem Lexes.marred (h : Lexes b cs ts) (hc : hasComment .code cs = true ∨ ∃ p, Token.pragma p ∈ ts)
    (hd : c = ';' ∨ c = ')') (hus : tokens? b' (cs.map oneLine ++ [c]) = some us) : us <+: ts := by
  have hline : ∀ ds : List Char, '\n' ∉ ds.map oneLine := fun ds hmem => by
    obtain ⟨e, -, he⟩ := List.mem_map.mp hmem
    exact Line.oneLine_ne_newline e he
  induction h generalizing b' us with
  | nil => simp [hasComment] at hc
  | newline _ ih => exact ih hc ((tokens?_oneLine_blank (by decide) _).symm.trans hus)
  | blank hb _ _ ih =>
    rw [hasComment_blank hb] at hc
    exact ih hc ((tokens?_oneLine_blank hb _).symm.trans hus)
  | @comment b cs ts _ _ =>
    -- There is no line break any more that would end the comment, so nothing is left to read.
    have hrest : tokens? b' (('/' :: '/' :: cs).map oneLine ++ [c]) = .nil := by
      show tokens? b' ('/' :: '/' :: (cs.map oneLine ++ [c])) = _
      rw [tokens?_comment, List.dropWhile_eq_nil_iff.mpr, tokens?_nil]
      intro d hmem
      rw [bne_iff_ne]
      rintro rfl
      rcases hd with rfl | rfl <;> simp [hline cs] at hmem
    cases hrest.symm.trans hus
    exact List.nil_prefix
  | @pragma cs p ts _ _ _ =>
    have hnone : tokens? b' (('#' :: cs).map oneLine ++ [c]) = none := tokens?_hash hd (hline cs)
    cases hnone.symm.trans hus
  | @token b x cs rest t ts hb hslash _ ht _ ih =>
    rw [hasComment_token ht] at hc
    rw [tokens?_oneLine_token (ends_of_close hd) hb hslash ht] at hus
    obtain ⟨_, vs, hone, hvs, rfl⟩ := Cut.append_eq_some.mp hus
    cases hone
    refine List.cons_prefix_cons.mpr ⟨rfl, ih (hc.imp_right ?_) hvs⟩
    rintro ⟨p, hp⟩
    exact ⟨p, (List.mem_cons.mp hp).resolve_left fun h => token?_ne_pragma ht p h.symm⟩

end

/-! ### The property -/

/-- The symbol closes a piece of code in a unit. -/
def Symbol.closesCode (s : Symbol) : Prop := s = .semicolon ∨ s = .closeParen

theorem tokens?_close {s : Symbol} (hs : s.closesCode) :
    ∃ c, s.text.toList = [c] ∧ (c = ';' ∨ c = ')') ∧ tokens? true [c] = some [.symbol s] := by
  rcases hs with rfl | rfl
  · exact ⟨';', rfl, .inl rfl, rfl⟩
  · exact ⟨')', rfl, .inr rfl, rfl⟩

/-- Code that can be split on its own has the same tokens on one line, with a symbol behind it that closes it, if and only if
it has no comment and no pragma. So without comments what is an expression is the same expression there. -/
theorem singleLine_tokens {code : String} {ls : List Lexeme} (h : lexemes code.toList = .ok ls) {s : Symbol}
    (hs : s.closesCode) (b : Bool) :
    (tokens? b (Line.singleLine code ++ s.text).toList = some (ls.map (·.token) ++ [.symbol s]) ↔
      hasComment .code code.toList = false ∧ ∀ p, Token.pragma p ∉ ls.map (·.token)) ∧
    ∀ e, Grammar.IsExpr .either ls e → hasComment .code code.toList = false →
      ∃ ls' l e', lexemes (Line.singleLine code ++ s.text).toList = .ok (ls' ++ [l]) ∧ l.token = .symbol s ∧
        Grammar.IsExpr .either ls' e' ∧ e'.erasePlaces = e.erasePlaces := by
  obtain ⟨c, hc, hclose, hsymbol⟩ := tokens?_close hs
  have hlexes := lexes_of_tokens? (lexemes_eq_ok h)
  have hflat : ∀ b, hasComment .code code.toList = false → (∀ p, Token.pragma p ∉ ls.map (·.token)) →
      tokens? b (Line.singleLine code ++ s.text).toList = some (ls.map (·.token) ++ [.symbol s]) := by
    intro b hcomment hpragma
    rw [String.toList_append, Line.toList_singleLine, hc, hlexes.flat hcomment hpragma (ends_of_close hclose), hsymbol]
    exact Cut.all_append _ _
  refine ⟨⟨fun htokens => ?_, fun hclean => hflat b hclean.1 hclean.2⟩, fun e he hcomment => ?_⟩
  · rw [String.toList_append, Line.toList_singleLine, hc] at htokens
    by_contra hnot
    have hmarred : hasComment .code code.toList = true ∨ ∃ p, Token.pragma p ∈ ls.map (·.token) := by
      by_contra hclean
      rw [not_or, not_exists, Bool.not_eq_true] at hclean
      exact hnot hclean
    -- The tokens on one line would be fewer than those of the code, but the symbol comes on top of them.
    have hle := (hlexes.marred hmarred hclose htokens).length_le
    rw [List.length_append, List.length_singleton] at hle
    omega
  · have hpragma : ∀ p, Token.pragma p ∉ ls.map (·.token) := by
      intro p hp
      obtain ⟨l, hl, hlp⟩ := List.mem_map.mp hp
      have hnest : nest true [] ls = some [] := he.nest []
      exact not_pragma_of_nest hnest l hl p hlp
    obtain ⟨ks, hks, htokens⟩ := exists_lexemes (hflat true hcomment hpragma)
    obtain ⟨ls', rs, rfl, hsame, hlast⟩ := List.map_eq_append_iff.mp htokens
    obtain ⟨l, rfl, hl⟩ := List.map_eq_singleton_iff.mp hlast
    obtain ⟨e', he', herase⟩ := he.relocate hsame
    exact ⟨ls', l, e', hks, hl, he', herase⟩

theorem member_tokens : (tokens? true "Model\n.Name".toList).map (·.map Token.describe) = some ["'Model'", "'.'", "'Name'"] := by
  decide +kernel

/-- A member of the model with a line break in front of its name has the same tokens on one line. -/
theorem singleLine_tokens_member : ∃ ls, lexemes "Model\n.Name".toList = .ok ls ∧ ls.length = 3 ∧
    tokens? false (Line.singleLine "Model\n.Name" ++ ";").toList = some (ls.map (·.token) ++ [.symbol .semicolon]) := by
  obtain ⟨ts, hts, hdescribe⟩ := Option.map_eq_some_iff.mp member_tokens
  obtain ⟨ls, hls, rfl⟩ := exists_lexemes hts
  refine ⟨ls, hls, by simpa using congrArg List.length hdescribe, ?_⟩
  refine (singleLine_tokens hls (.inl rfl) false).1.mpr ⟨by decide, fun p hp => ?_⟩
  have hmem : Token.describe (.pragma p) ∈ ["'Model'", "'.'", "'Name'"] := hdescribe ▸ List.mem_map_of_mem hp
  simp [Token.describe] at hmem

/-- A comment in front of the line break takes the member and the semicolon along. -/
theorem comment_takes_member :
    (tokens? false (Line.singleLine "Model // note\n.Name" ++ ";").toList).map (·.map Token.describe) = some ["'Model'"] := by
  decide +kernel

end Stencil.Unit
