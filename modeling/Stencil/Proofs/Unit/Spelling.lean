import Mathlib.Data.List.TakeWhile
import Stencil.Proofs.Json.Literal
import Stencil.Proofs.Markup.Documents
import Stencil.Proofs.Unit.OneLine

/-! The tokens of the lines that a document becomes.

Line by line, the tokens of the fixed text and of the embedded code are found in the text that is made of them. Code is
followed by a semicolon or a parenthesis, which end its last token; so what the code gives does not depend on where it
stands. -/

namespace Stencil.Unit

open Markup (Node Fragment Spot)

/-! ### Texts that tokens start with -/

/-- The tokens of the text come first, whatever follows it, as long as that ends the last token. -/
def Begins (cs : List Char) (c : Cut) : Prop := ∀ ds, Ends ds → tokens? false (cs ++ ds) = c ++ tokens? false ds

/-- A word. -/
def word (w : String) : Cut := .one (.name w)

/-- A symbol. -/
def sym (s : Symbol) : Cut := .one (.symbol s)

section
variable {cs ds : List Char} {a b c : Cut} {x : Char}

theorem begins_nil : Begins [] .nil := fun _ _ => (Cut.nil_append _).symm

theorem Begins.space (h : Begins cs c) : Begins (' ' :: cs) c := by
  intro ds hds
  rw [List.cons_append, tokens?_blank (by decide) (by decide)]
  exact h ds hds

/-- A name is read up to its end. -/
theorem token?_of_isName {w : List Char} (hw : Text.isName (x :: w) = true)
    (hds : ∀ d ∈ ds.head?, Text.isNameChar d = false) :
    token? x (x :: (w ++ ds)) = some (.name (String.ofList (x :: w)), ds) := by
  rw [Text.isName, Bool.and_eq_true] at hw
  have hall : ∀ c ∈ x :: w, Text.isNameChar c = true := fun c hc =>
    (List.mem_cons.mp hc).elim (fun h => h ▸ Text.isNameChar_of_isNameStart hw.1) (List.all_eq_true.mp hw.2 c)
  obtain ⟨htake, hdrop⟩ := takeWhile_append_of_head hds (x :: w)
  have hself : (x :: w).takeWhile Text.isNameChar = x :: w := List.takeWhile_eq_self_iff.mpr hall
  have hnil : (x :: w).dropWhile Text.isNameChar = [] := List.dropWhile_eq_nil_iff.mpr hall
  rw [token?_name hw.1, ← List.cons_append, htake, hdrop, hself, hnil]
  rfl

/-- The character starts a name only. -/
theorem ne_of_isNameStart (hx : Text.isNameStart x = true) : Text.isBlank x = false ∧ x ≠ '/' ∧ x ≠ '#' := by
  refine ⟨Text.not_blank_of_isNameStart hx, ?_, ?_⟩ <;> rintro rfl <;> exact absurd hx (by decide)

/-- A name is a token of its own before anything that does not go on with it. -/
theorem tokens?_name {w : List Char} (hw : Text.isName w = true) (hds : ∀ d ∈ ds.head?, Text.isNameChar d = false)
    (b : Bool) : tokens? b (w ++ ds) = .one (.name (String.ofList w)) ++ tokens? false ds := by
  cases w with
  | nil => cases hw
  | cons x w =>
    have hname := hw
    rw [Text.isName, Bool.and_eq_true] at hw
    obtain ⟨hblank, hslash, hhash⟩ := ne_of_isNameStart hw.1
    rw [List.cons_append, tokens?_token hblank (fun h => hslash h.1) (fun h => hhash h.1), token?_of_isName hname hds]
    rfl

theorem Ends.head_not_name (h : Ends ds) : ∀ d ∈ ds.head?, Text.isNameChar d = false := EndsTokens.head (by decide) h

theorem begins_name {w : List Char} (hw : Text.isName w = true) (hcs : ∀ d ∈ cs.head?, Text.isNameChar d = false)
    (h : Begins cs c) : Begins (w ++ cs) (.one (.name (String.ofList w)) ++ c) := by
  intro ds hds
  have hhead : ∀ d ∈ (cs ++ ds).head?, Text.isNameChar d = false := by
    cases cs with
    | nil => exact hds.head_not_name
    | cons d cs => exact hcs
  rw [List.append_assoc, tokens?_name hw hhead, h ds hds, Cut.append_assoc]

theorem begins_word {w : String} (hw : Text.isName w.toList = true) (hcs : ∀ d ∈ cs.head?, Text.isNameChar d = false)
    (h : Begins cs c) : Begins (w.toList ++ cs) (word w ++ c) := by
  have := begins_name hw hcs h
  rwa [String.ofList_toList] at this

/-- The character starts no token but a symbol. -/
def OnlySymbol (x : Char) : Bool :=
  !Text.isBlank x && !Text.isNameStart x && x != '"' && !x.isDigit && x != '-' && x != '#' && x != '/'

/-- A symbol is read in front of what follows it. -/
theorem token?_of_onlySymbol {s : Symbol} (hx : OnlySymbol x = true)
    (hs : (Symbol.all.find? fun t => t.text.toList.isPrefixOf (x :: cs)) = some s) :
    (Text.isBlank x = false ∧ x ≠ '/' ∧ x ≠ '#') ∧
      token? x (x :: cs) = some (.symbol s, (x :: cs).drop s.text.length) := by
  simp only [OnlySymbol, Bool.and_eq_true, Bool.not_eq_true', bne_iff_ne] at hx
  obtain ⟨⟨⟨⟨⟨⟨hblank, hname⟩, hquote⟩, hdigit⟩, hminus⟩, hhash⟩, hslash⟩ := hx
  have hnumber : ¬StartsNumber x cs := by
    simp [StartsNumber, hdigit, hminus]
  refine ⟨⟨hblank, hslash, hhash⟩, ?_⟩
  rw [token?_symbol hname hquote hnumber, hs]
  rfl

theorem tokens?_symbol {s : Symbol} (hx : OnlySymbol x = true)
    (hs : (Symbol.all.find? fun t => t.text.toList.isPrefixOf (x :: cs)) = some s) (b : Bool) :
    tokens? b (x :: cs) = sym s ++ tokens? false ((x :: cs).drop s.text.length) := by
  obtain ⟨⟨hblank, hslash, hhash⟩, htoken⟩ := token?_of_onlySymbol hx hs
  rw [tokens?_token hblank (fun h => hslash h.1) (fun h => hhash h.1), htoken]
  rfl

/-- A symbol that is found in front of every text. -/
theorem begins_symbol {s : Symbol} (hx : OnlySymbol x = true)
    (hs : ∀ es, (Symbol.all.find? fun t => t.text.toList.isPrefixOf (x :: es)) = some s) (h1 : s.text.length = 1)
    (h : Begins cs c) : Begins (x :: cs) (sym s ++ c) := by
  intro ds hds
  rw [List.cons_append, tokens?_symbol hx (hs _), h1, Cut.append_assoc]
  exact congrArg (sym s ++ ·) (h ds hds)

theorem Begins.openParen (h : Begins cs c) : Begins ('(' :: cs) (sym .openParen ++ c) :=
  begins_symbol (by decide) (fun _ => rfl) rfl h

theorem Begins.closeParen (h : Begins cs c) : Begins (')' :: cs) (sym .closeParen ++ c) :=
  begins_symbol (by decide) (fun _ => rfl) rfl h

theorem Begins.openBrace (h : Begins cs c) : Begins ('\x7b' :: cs) (sym .openBrace ++ c) :=
  begins_symbol (by decide) (fun _ => rfl) rfl h

theorem Begins.closeBrace (h : Begins cs c) : Begins ('\x7d' :: cs) (sym .closeBrace ++ c) :=
  begins_symbol (by decide) (fun _ => rfl) rfl h

theorem Begins.comma (h : Begins cs c) : Begins (',' :: cs) (sym .comma ++ c) :=
  begins_symbol (by decide) (fun _ => rfl) rfl h

theorem Begins.semicolon (h : Begins cs c) : Begins (';' :: cs) (sym .semicolon ++ c) :=
  begins_symbol (by decide) (fun _ => rfl) rfl h

theorem Begins.assign (h : Begins cs c) : Begins ('=' :: ' ' :: cs) (sym .assign ++ c) := by
  intro ds hds
  rw [List.cons_append, tokens?_symbol (s := .assign) (by decide) rfl, Cut.append_assoc]
  exact congrArg (sym .assign ++ ·) (h.space ds hds)

theorem Begins.arrow (h : Begins cs c) : Begins ('=' :: '>' :: cs) (sym .arrow ++ c) := by
  intro ds hds
  rw [List.cons_append, tokens?_symbol (s := .arrow) (by decide) rfl, Cut.append_assoc]
  exact congrArg (sym .arrow ++ ·) (h ds hds)

/-! ### Literals -/

theorem takeLiteral?_escapeChar (x : Char) (cs : List Char) :
    takeLiteral? (Json.escapeChar x ++ cs) = (takeLiteral? cs).map fun r => (Json.escapeChar x ++ r.1, r.2) := by
  have hhex : ∀ n < 16, Text.hexDigit n ≠ '\n' ∧ Text.hexDigit n ≠ '"' ∧ Text.hexDigit n ≠ '\\' := by decide
  unfold Json.escapeChar
  split
  · exact takeLiteral?_escape _ _
  · rename_i hq
    split
    · exact takeLiteral?_escape _ _
    · rename_i hb
      iterate 5
        split
        · exact takeLiteral?_escape _ _
      split
      · rename_i hlow
        obtain ⟨hn, hq, hb⟩ := hhex (x.toNat / 16) (by omega)
        obtain ⟨hn', hq', hb'⟩ := hhex (x.toNat % 16) (by omega)
        simp only [List.cons_append, List.nil_append]
        rw [takeLiteral?_escape, takeLiteral?_plain (c := '0') (by decide) (by decide) (by decide),
          takeLiteral?_plain (c := '0') (by decide) (by decide) (by decide), takeLiteral?_plain hn hq hb,
          takeLiteral?_plain hn' hq' hb']
        simp only [Option.map_map]
        rfl
      · rename_i hn _ _ _
        exact takeLiteral?_plain hn hq hb cs

theorem takeLiteral?_escaped (cs ds : List Char) :
    takeLiteral? (cs.flatMap Json.escapeChar ++ '"' :: ds) = some (cs.flatMap Json.escapeChar ++ ['"'], ds) := by
  induction cs with
  | nil => rfl
  | cons c cs ih =>
    rw [List.flatMap_cons, List.append_assoc, takeLiteral?_escapeChar, ih]
    simp

/-- The literal of a text is a token of its own. -/
theorem begins_quote (s : String) (h : Begins cs c) : Begins ((Json.quote s).toList ++ cs) (.one (.string s) ++ c) := by
  intro ds hds
  rw [Json.quote, String.toList_ofList, Json.quoteChars, List.append_assoc, List.cons_append, List.append_assoc,
    List.singleton_append, tokens?_token (by decide) (by simp) (by simp), token?_quote, takeLiteral?_escaped,
    Option.bind_some]
  show (Option.map _ (Json.unquoteChars? (Json.quoteChars s.toList))).bind _ = _
  rw [Json.unquoteChars?_quoteChars, Option.map_some, Option.bind_some, String.ofList_toList]
  have hdrop : (s.toList.flatMap Json.escapeChar ++ '"' :: (cs ++ ds)).drop (s.toList.flatMap Json.escapeChar ++ ['"']).length =
      cs ++ ds := by
    rw [show s.toList.flatMap Json.escapeChar ++ '"' :: (cs ++ ds) =
      s.toList.flatMap Json.escapeChar ++ ['"'] ++ (cs ++ ds) by simp, List.drop_left]
  dsimp only
  rw [hdrop, h ds hds, Cut.append_assoc]

end

/-! ### Code -/

/-- The tokens of code as it stands in a unit, on one line. -/
def codeCut (code : String) : Cut := tokens? false (code.toList.map Line.oneLine)

theorem begins_code {code : String} {cs : List Char} {c : Cut} (ht : Tidy (code.toList.map Line.oneLine))
    (hcs : ∀ ds, Ends ds → Ends (cs ++ ds)) (h : Begins cs c) :
    Begins ((Line.singleLine code).toList ++ cs) (codeCut code ++ c) := by
  intro ds hds
  have hends := hcs ds hds
  rw [Line.toList_singleLine, List.append_assoc, tokens?_append ht hends, hends.tokens? true false, h ds hds,
    Cut.append_assoc]
  rfl

/-! ### Lines -/

/-- The numbers of the pragmas among the lines can be read: there are no pragmas, or the text is not too long. -/
def Counted (lines : List Line) : Prop := (∀ p, .pragma p ∉ lines) ∨ (Line.chars lines).length ≤ Text.maxCount

/-- The tokens of the lines come first, whatever lines follow them, if the numbers of their pragmas can be read. -/
def Tells (lines : List Line) (c : Cut) : Prop :=
  Counted lines → ∀ rest, tokens? true (Line.chars lines ++ rest) = c ++ tokens? true rest

section
variable {lines ls ms : List Line} {a b c : Cut} {x : Char} {cs ds : List Char} {depth : Nat} {text : String}

theorem Counted.of_append (h : Counted (ls ++ ms)) : Counted ls ∧ Counted ms := by
  rcases h with h | h
  · exact ⟨.inl fun p hp => h p (List.mem_append_left _ hp), .inl fun p hp => h p (List.mem_append_right _ hp)⟩
  · rw [Line.chars_append, List.length_append] at h
    exact ⟨.inr (Nat.le_trans (Nat.le_add_right _ _) h), .inr (Nat.le_trans (Nat.le_add_left _ _) h)⟩

theorem tells_nil : Tells [] .nil := fun _ _ => (Cut.nil_append _).symm

theorem Tells.append (h : Tells ls a) (h' : Tells ms b) : Tells (ls ++ ms) (a ++ b) := by
  intro hcounted rest
  obtain ⟨hls, hms⟩ := hcounted.of_append
  rw [Line.chars_append, List.append_assoc, h hls, h' hms, Cut.append_assoc]

theorem tells_blank : Tells [.blank] .nil := by
  intro _ rest
  rw [Line.chars_cons, Line.chars_nil, Cut.nil_append]
  exact tokens?_newline true rest

theorem tokens?_indent (b : Bool) (depth : Nat) (cs : List Char) : tokens? b (Line.indent depth ++ cs) = tokens? b cs := by
  have hall : ∀ n, tokens? b (List.replicate n ' ' ++ cs) = tokens? b cs := by
    intro n
    induction n with
    | zero => rfl
    | succ n ih => rw [List.replicate_succ, List.cons_append, tokens?_blank (by decide) (by decide), ih]
  exact hall _

/-- Only a pragma tells the start of a line from its middle. -/
theorem tokens?_flag (hb : Text.isBlank x = false) (hx : x ≠ '#') (b b' : Bool) (cs : List Char) :
    tokens? b (x :: cs) = tokens? b' (x :: cs) := by
  by_cases hc : x = '/' ∧ cs.head? = some '/'
  · obtain ⟨rfl, hc⟩ := hc
    obtain ⟨ds, rfl⟩ := List.head?_eq_some_iff.mp hc
    rw [tokens?_comment, tokens?_comment]
    cases hd : ds.dropWhile (· != '\n') with
    | nil => rfl
    | cons d es =>
      have hd : d = '\n' := by
        have := List.head?_dropWhile_not (· != '\n') ds
        rw [hd] at this
        simpa using this
      rw [hd, tokens?_newline, tokens?_newline]
  · rw [tokens?_token hb hc (fun h => hx h.1), tokens?_token hb hc (fun h => hx h.1)]

theorem tells_code (ht : text.toList = x :: cs) (hb : Text.isBlank x = false) (hx : x ≠ '#') (h : Begins text.toList c) :
    Tells [.code depth text] c := by
  intro _ rest
  rw [Line.chars_cons, Line.toList_code, Line.chars_nil, List.append_assoc, List.append_assoc, tokens?_indent]
  show tokens? true (text.toList ++ '\n' :: rest) = _
  have hends : Ends ('\n' :: rest) := by
    rintro _ ⟨⟩
    exact .inr (.inr rfl)
  rw [ht, List.cons_append, tokens?_flag hb hx true false, ← List.cons_append, ← ht, h _ hends, tokens?_newline]

theorem tells_openBrace : Tells [.code depth "\x7b"] (sym .openBrace) := by
  have h := (Begins.openBrace begins_nil)
  rw [Cut.append_nil] at h
  exact tells_code rfl (by decide) (by decide) h

theorem tells_closeBrace : Tells [.code depth "\x7d"] (sym .closeBrace) := by
  have h := (Begins.closeBrace begins_nil)
  rw [Cut.append_nil] at h
  exact tells_code rfl (by decide) (by decide) h

/-- The tokens of what stands between braces. -/
def bracesCut (c : Cut) : Cut := sym .openBrace ++ (c ++ sym .closeBrace)

theorem tells_braced (depth : Nat) (h : Tells lines c) : Tells (braced depth lines) (bracesCut c) :=
  tells_openBrace.append (h.append tells_closeBrace)

/-- The place can be read back from a pragma. -/
structure Readable (pos : SourcePos) : Prop where
  line : pos.line ≤ Text.maxCount
  column : pos.column ≤ Text.maxCount

theorem tells_pragma {p : Pragma} (hp : Readable p.template) (hc : p.column ≤ Text.maxCount) :
    Tells [.pragma p] (.one (.pragma p.template)) := by
  intro _ rest
  rw [Line.chars_cons, Line.chars_nil, List.append_assoc]
  show tokens? true (p.text.toList ++ '\n' :: rest) = _
  obtain ⟨cs, hcs⟩ : ∃ cs, p.text.toList = '#' :: cs := ⟨_, Pragma.toList_text p⟩
  have hline : ∀ c ∈ p.text.toList, (c != '\n') = true := fun c hc =>
    bne_iff_ne.mpr fun h => p.not_mem_newline (h ▸ hc)
  have htake : (p.text.toList ++ '\n' :: rest).takeWhile (· != '\n') = p.text.toList := by
    rw [List.takeWhile_append_of_pos hline]
    simp
  have hdrop : (p.text.toList ++ '\n' :: rest).dropWhile (· != '\n') = '\n' :: rest := by
    rw [List.dropWhile_append_of_pos hline]
    simp
  rw [hcs, List.cons_append, ← hcs] at htake
  rw [hcs, List.cons_append, List.dropWhile_cons_of_pos (by decide)] at hdrop
  rw [hcs, List.cons_append, tokens?_pragma, htake, Pragma.ofLine?_text hp.line hp.column hc, Option.bind_some, hdrop,
    tokens?_newline]

/-- A line that starts with a word. -/
theorem tells_word {w : String} (hw : Text.isName w.toList = true) (ht : text.toList = w.toList ++ cs)
    (hcs : ∀ d ∈ cs.head?, Text.isNameChar d = false) (h : Begins cs c) : Tells [.code depth text] (word w ++ c) := by
  have hbegins := begins_word hw hcs h
  rw [← ht] at hbegins
  cases hx : w.toList with
  | nil =>
    rw [hx] at hw
    cases hw
  | cons x xs =>
    rw [hx, Text.isName, Bool.and_eq_true] at hw
    refine tells_code (by rw [ht, hx]; rfl) (Text.not_blank_of_isNameStart hw.1) ?_ hbegins
    rintro rfl
    exact absurd hw.1 (by decide)

theorem select_append (pragmas : Bool) (ls ms : List Line) :
    Line.select pragmas (ls ++ ms) = Line.select pragmas ls ++ Line.select pragmas ms := by
  cases pragmas
  · exact List.filter_append ..
  · rfl

theorem select_braced (pragmas : Bool) (depth : Nat) (ls : List Line) :
    Line.select pragmas (braced depth ls) = braced depth (Line.select pragmas ls) := by
  show Line.select pragmas ([.code depth "\x7b"] ++ (ls ++ [.code depth "\x7d"])) = _
  rw [select_append, select_append]
  cases pragmas <;> rfl

/-- The pragma before a line of code at a place. -/
def markCut (pragmas : Bool) (pos : SourcePos) : Cut := if pragmas then .one (.pragma pos) else .nil

/-- The pragma before a line of code, if its place is given. -/
def markOf (pragmas : Bool) (pos : Option SourcePos) : Cut := pos.elim .nil (markCut pragmas)

theorem tells_mapped (pragmas : Bool) {pos : Option SourcePos} {before code after : String}
    (hp : ∀ p ∈ pos, Readable p) (h : Tells [.code depth (before ++ Line.singleLine code ++ after)] c) :
    Tells (Line.select pragmas (Line.mapped depth pos before code after)) (markOf pragmas pos ++ c) := by
  cases pos with
  | none =>
    show Tells _ (.nil ++ c)
    rw [Cut.nil_append]
    cases pragmas <;> exact h
  | some pos =>
    cases pragmas with
    | false =>
      show Tells _ (.nil ++ c)
      rw [Cut.nil_append]
      exact h
    | true =>
      intro hcounted
      -- The code stands in its line, so its column is at most the length of the lines.
      have hcolumn : depth * Line.indentWidth + before.length + 1 ≤ Text.maxCount := by
        refine Nat.le_trans ?_ (hcounted.resolve_left fun h => h _ List.mem_cons_self)
        simp only [Line.select, Line.mapped, if_true, Line.chars_cons, Line.toList_code, String.toList_append,
          List.length_append, List.length_cons, Line.indent, List.length_replicate, String.length_toList]
        omega
      have htells := (tells_pragma (p := ⟨pos, _⟩) (hp pos rfl) hcolumn).append h
      exact htells hcounted

/-- Code that is tidy on one line, at a place that can be read back. -/
structure Ready (f : Fragment) : Prop where
  tidy : Tidy (f.text.map Line.oneLine)
  place : Readable f.start

theorem Ready.mem_place {f : Fragment} (h : Ready f) : ∀ p ∈ some f.start, Readable p := by
  rintro _ ⟨⟩
  exact h.place

end

/-! ### Nodes -/

mutual

/-- The tokens of a node. -/
def nodeCut (pragmas : Bool) : Node → Cut
  | .text text _ => word "write" ++ (.one (.string text) ++ sym .semicolon)
  | .expr code pos => markCut pragmas pos ++ (word "emit" ++ (codeCut code ++ sym .semicolon))
  | .var name code pos =>
    markCut pragmas pos ++ (word "var" ++ (word name ++ (sym .assign ++ (codeCut code ++ sym .semicolon))))
  | .ifElse branches none => branchesCut pragmas (word "if") branches
  | .ifElse branches (some body) =>
    branchesCut pragmas (word "if") branches ++ (word "else" ++ bracesCut (nodesCut pragmas body))
  | .forEach var source pos body =>
    markCut pragmas pos ++ (word "foreach" ++ (sym .openParen ++ (word "var" ++ (word var ++ (word "in" ++
      (codeCut source ++ (sym .closeParen ++ bracesCut (nodesCut pragmas body))))))))
  | .sectionDef name _ _ => word "define_section" ++ (.one (.string name) ++ sym .semicolon)

/-- The tokens of alternatives, of which the first starts with the given ones. -/
def branchesCut (pragmas : Bool) (start : Cut) : List Markup.Branch → Cut
  | [] => .nil
  | .mk cond pos body :: rest =>
    markCut pragmas pos ++ (start ++ (sym .openParen ++ (codeCut cond ++ (sym .closeParen ++
      (bracesCut (nodesCut pragmas body) ++ branchesCut pragmas (word "else" ++ word "if") rest)))))

/-- The tokens of nodes one after the other. -/
def nodesCut (pragmas : Bool) : List Node → Cut
  | [] => .nil
  | n :: ns => nodeCut pragmas n ++ nodesCut pragmas ns

end

theorem ends_semicolon (cs : List Char) : Ends (';' :: cs) := by
  rintro _ ⟨⟩
  exact .inl rfl

theorem ends_closeParen (cs : List Char) : Ends (')' :: cs) := by
  rintro _ ⟨⟩
  exact .inr (.inl rfl)

theorem begins_semicolon : Begins [';'] (sym .semicolon) := by
  have h := Begins.semicolon begins_nil
  rwa [Cut.append_nil] at h

theorem begins_closeParen : Begins [')'] (sym .closeParen) := by
  have h := Begins.closeParen begins_nil
  rwa [Cut.append_nil] at h

theorem head?_blank {cs : List Char} : ∀ d ∈ (' ' :: cs).head?, Text.isNameChar d = false := by
  rintro _ ⟨⟩
  decide

section
variable {depth : Nat} {code : String} {pos : SourcePos}

theorem emit_tells (depth : Nat) (h : Ready ⟨code.toList, pos⟩) : Tells [.code depth ("emit " ++ Line.singleLine code ++ ";")]
    (word "emit" ++ (codeCut code ++ sym .semicolon)) := by
  refine tells_word (by decide) ?_ head?_blank (begins_code h.tidy (fun ds _ => ends_semicolon ds) begins_semicolon).space
  simp

theorem var_tells (depth : Nat) {name : String} (hn : Text.isName name.toList = true) (h : Ready ⟨code.toList, pos⟩) :
    Tells [.code depth (s!"var {name} = " ++ Line.singleLine code ++ ";")]
      (word "var" ++ (word name ++ (sym .assign ++ (codeCut code ++ sym .semicolon)))) := by
  have hcode := begins_code h.tidy (fun ds _ => ends_semicolon ds) begins_semicolon
  refine tells_word (by decide) ?_ head?_blank (begins_word hn head?_blank hcode.assign.space).space
  simp [toString]

theorem forEach_tells (depth : Nat) {name : String} (hn : Text.isName name.toList = true) (h : Ready ⟨code.toList, pos⟩) :
    Tells [.code depth (s!"foreach (var {name} in " ++ Line.singleLine code ++ ")")]
      (word "foreach" ++ (sym .openParen ++ (word "var" ++ (word name ++ (word "in" ++ (codeCut code ++ sym .closeParen)))))) := by
  have hcode := begins_code h.tidy (fun ds _ => ends_closeParen ds) begins_closeParen
  have hin := begins_word (w := "in") (by decide) head?_blank hcode.space
  have hvar := begins_word (w := "var") (by decide) head?_blank (begins_word hn head?_blank hin.space).space
  refine tells_word (by decide) ?_ head?_blank hvar.openParen.space
  simp [toString]

/-- A line that is a word and a literal. -/
theorem literal_tells {w line text : String} (hw : Text.isName w.toList = true)
    (ht : line.toList = w.toList ++ ' ' :: ((Json.quote text).toList ++ [';'])) :
    Tells [.code depth line] (word w ++ (.one (.string text) ++ sym .semicolon)) :=
  tells_word hw ht head?_blank (begins_quote text begins_semicolon).space

end

/-- The two ways in which the first line of an alternative starts. -/
inductive Starts : String → Cut → Prop
  | first : Starts "if (" (word "if")
  | more : Starts "else if (" (word "else" ++ word "if")

theorem Starts.tells (depth : Nat) {code start : String} {pos : SourcePos} {c : Cut} (hs : Starts start c)
    (h : Ready ⟨code.toList, pos⟩) : Tells [.code depth (start ++ Line.singleLine code ++ ")")]
      (c ++ (sym .openParen ++ (codeCut code ++ sym .closeParen))) := by
  have hcode := begins_code h.tidy (fun ds _ => ends_closeParen ds) begins_closeParen
  cases hs with
  | first =>
    refine tells_word (by decide) ?_ head?_blank hcode.openParen.space
    simp
  | more =>
    have hif := begins_word (w := "if") (by decide) head?_blank hcode.openParen.space
    rw [Cut.append_assoc]
    refine tells_word (by decide) ?_ head?_blank hif.space
    simp

mutual

/-- A node gives its tokens. -/
theorem node_tells (depth : Nat) (pragmas : Bool) {top : Bool} : (n : Node) → n.Proper top → (∀ f ∈ n.fragments, Ready f) →
    Tells (Line.select pragmas (nodeLines depth n)) (nodeCut pragmas n)
  | .text text pos, _, _ => by
    have hline : Tells [.code depth s!"write {Json.quote text};"] (nodeCut pragmas (.text text pos)) := by
      refine literal_tells (by decide) ?_
      simp [toString]
    cases pragmas <;> exact hline
  | .expr code pos, _, hf => by
    have hready := hf _ (List.mem_singleton_self _)
    exact tells_mapped pragmas hready.mem_place (emit_tells depth hready)
  | .var name code pos, hp, hf => by
    have hready := hf _ (List.mem_singleton_self _)
    exact tells_mapped pragmas hready.mem_place (var_tells depth hp.1 hready)
  | .ifElse branches none, hp, hf => by
    rw [nodeLines, List.append_nil]
    exact branches_tell depth pragmas .first branches hp.2 hf
  | .ifElse branches (some body), hp, hf => by
    have hbranches := branches_tell depth pragmas .first branches hp.2.1
      fun f h => hf f (List.mem_append_left _ h)
    have hbody := nodes_tell (depth + 1) pragmas body hp.2.2 fun f h => hf f (List.mem_append_right _ h)
    -- The word stands alone on its line, behind the alternatives and before the braces.
    have helse : Tells [.code depth "else"] (word "else" ++ .nil) :=
      tells_word (by decide) (List.append_nil _).symm (fun _ h => nomatch h) begins_nil
    rw [Cut.append_nil] at helse
    show Tells (Line.select pragmas (branchLines depth "if (" branches ++
      ([.code depth "else"] ++ braced depth (nodeListLines (depth + 1) body)))) _
    rw [select_append, select_append, select_braced]
    refine hbranches.append (Tells.append ?_ (tells_braced depth hbody))
    cases pragmas <;> exact helse
  | .forEach var source pos body, hp, hf => by
    have hready := hf _ List.mem_cons_self
    have hbody := nodes_tell (depth + 1) pragmas body hp.2 fun f h => hf f (List.mem_cons_of_mem _ h)
    have hline := tells_mapped pragmas hready.mem_place (forEach_tells depth hp.1 hready)
    rw [nodeLines, select_append, select_braced]
    have hall := hline.append (tells_braced depth hbody)
    simp only [Cut.append_assoc] at hall
    exact hall
  | .sectionDef name pos body, _, _ => by
    have hline : Tells [.code depth s!"define_section {Json.quote name};"] (nodeCut pragmas (.sectionDef name pos body)) := by
      refine literal_tells (by decide) ?_
      simp [toString]
    cases pragmas <;> exact hline

theorem nodes_tell (depth : Nat) (pragmas : Bool) {top : Bool} : (ns : List Node) → Node.ProperAll top ns →
    (∀ f ∈ Node.fragmentsAll ns, Ready f) →
    Tells (Line.select pragmas (nodeListLines depth ns)) (nodesCut pragmas ns)
  | [], _, _ => by
    cases pragmas <;> exact tells_nil
  | n :: ns, hp, hf => by
    rw [nodeListLines, select_append]
    exact (node_tells depth pragmas n hp.1 fun f h => hf f (List.mem_append_left _ h)).append
      (nodes_tell depth pragmas ns hp.2 fun f h => hf f (List.mem_append_right _ h))

theorem branches_tell (depth : Nat) (pragmas : Bool) {start : String} {c : Cut} (hs : Starts start c) :
    (bs : List Markup.Branch) → Markup.Branch.ProperAll bs → (∀ f ∈ Markup.Branch.fragmentsAll bs, Ready f) →
    Tells (Line.select pragmas (branchLines depth start bs)) (branchesCut pragmas c bs)
  | [], _, _ => by
    cases pragmas <;> exact tells_nil
  | .mk cond pos body :: bs, hp, hf => by
    have hready := hf _ List.mem_cons_self
    have hbody := nodes_tell (depth + 1) pragmas body hp.1 fun f h =>
      hf f (List.mem_cons_of_mem _ (List.mem_append_left _ h))
    have hrest := branches_tell depth pragmas .more bs hp.2 fun f h =>
      hf f (List.mem_cons_of_mem _ (List.mem_append_right _ h))
    have hline := tells_mapped pragmas hready.mem_place (hs.tells depth hready)
    rw [branchLines, select_append, select_append, select_braced]
    have hall := (hline.append (tells_braced depth hbody)).append hrest
    simp only [Cut.append_assoc] at hall
    exact hall

end

end Stencil.Unit
