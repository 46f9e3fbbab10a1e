import Stencil.Proofs.Markup.Delimiting
import Stencil.Proofs.Markup.Stages

/-! A printed template is read back.

Each construct is read from its markup up to the at sign after it, and what stands around a construct leaves it alone:
the empty code block ends the text before it, and the at sign of the empty comment keeps the line end after it. Nodes
in a row are read one by one, and a body is read up to its brace since the braces of its texts are balanced. -/

namespace Stencil.Markup

/-! ### Moving on -/

section
variable {c : Cursor} {cs tail : List Char} {x : Char}

theorem next_rest (h : c.rest = x :: tail) : c.next.rest = tail := by
  show c.rest.drop 1 = tail
  rw [h]
  rfl

/-- A run of characters ends before the first one that fails the test. -/
theorem takeWhile_run {p : Char → Bool} (h : c.rest = cs ++ x :: tail) (hcs : cs.all p = true)
    (hx : p x = false) : ∃ d, c.takeWhile p = (cs, d) ∧ d.rest = x :: tail := by
  rw [List.all_eq_true] at hcs
  simp [Cursor.takeWhile, h, List.takeWhile_append_of_pos hcs, List.dropWhile_append_of_pos hcs, hx]

theorem skipBlanks_rest (blanks : List Char) (h : c.rest = blanks ++ x :: tail) (hb : Text.allBlank blanks = true)
    (hx : Text.isBlank x = false) : c.skipBlanks.rest = x :: tail := by
  obtain ⟨d, htake, hd⟩ := takeWhile_run h hb hx
  rw [Cursor.skipBlanks, Cursor.skipWhile, htake]
  exact hd

/-- An at sign keeps the end of the line before it. -/
theorem dropBlankLineEnd_atSign (h : c.rest = '@' :: tail) : c.dropBlankLineEnd = c := by
  obtain ⟨rest, pos⟩ := c
  obtain rfl : rest = '@' :: tail := h
  rfl

theorem keyword?_word (h : c.rest = cs ++ x :: tail) (hx : Text.isNameChar x = false) :
    ∃ d, c.keyword? cs = some d ∧ d.rest = x :: tail := by
  have hp : cs.isPrefixOf c.rest = true := List.isPrefixOf_iff_prefix.mpr ⟨_, h.symm⟩
  have hrest : (c.skip cs.length).rest = x :: tail := by
    show c.rest.drop cs.length = _
    rw [h, List.drop_left]
  refine ⟨c.skip cs.length, ?_, hrest⟩
  simp [Cursor.keyword?, Cursor.eatText?, hp, Cursor.atWordEnd, Cursor.nextIs, Cursor.peek?_eq hrest, hx]

theorem keyword?_other {y : Char} (h : c.rest = x :: tail) (hxy : y ≠ x) : c.keyword? (y :: cs) = none := by
  simp [Cursor.keyword?, Cursor.eatText?, h, hxy]

/-- A region with well-nested code gives the code. -/
theorem region_code {o e : Char} {w : List Char} (opened : SourcePos) (what : String) (ho : closerOf? o = some e)
    (hw : WellNested w) (h : c.rest = o :: (w ++ e :: tail)) :
    ∃ pos d, region c opened what = .ok (⟨w, pos⟩, d) ∧ d.rest = tail := by
  obtain ⟨rest, pos⟩ := c
  obtain rfl : rest = o :: (w ++ e :: tail) := h
  exact ⟨_, ⟨tail, _⟩, by rw [region, balanced_wellNested ho hw]; rfl, rfl⟩

/-- Code in parentheses is read as it is. -/
theorem parenthesized_code (keyword : String) (hw : WellNested cs) (ht : Text.trim cs = cs)
    (hb : Text.allBlank cs = false) (h : c.rest = " (".toList ++ cs ++ ')' :: tail) :
    ∃ pos d, parenthesized keyword c = .ok (⟨cs, pos⟩, d) ∧ d.rest = tail := by
  have hblank : c.skipBlanks.rest = '(' :: (cs ++ ')' :: tail) := by
    refine skipBlanks_rest [' '] ?_ (by decide) (by decide)
    simpa using h
  obtain ⟨pos, d, hregion, hd⟩ := region_code c.skipBlanks.pos s!"'{keyword}' condition" rfl hw hblank
  refine ⟨pos.after (cs.takeWhile Text.isBlank), d, ?_, hd⟩
  simp only [parenthesized, Cursor.peek?_eq hblank, hregion]
  show (if Text.allBlank (Text.trim cs) = true then _ else _) = _
  rw [ht, hb, Fragment.trim, ht]
  rfl

theorem openBrace_brace (what : String) (hcs : Text.allBlank cs = true) (h : c.rest = cs ++ '{' :: tail) :
    ∃ pos d, openBrace what c = .ok (pos, d) ∧ d.rest = tail := by
  have hblank : c.skipBlanks.rest = '{' :: tail := skipBlanks_rest cs h hcs (by decide)
  refine ⟨c.skipBlanks.pos, c.skipBlanks.next, ?_, next_rest hblank⟩
  simp only [openBrace, Cursor.eat?, Cursor.peek?_eq hblank, if_true]

/-- The name of a section is read up to the blank after it. -/
theorem name?_name {name : List Char} (hn : Text.isName name = true) (h : c.rest = ' ' :: (name ++ ' ' :: tail)) :
    ∃ d, c.skipInlineBlanks.name? = some (name, d) ∧ d.rest = ' ' :: tail := by
  obtain ⟨x, xs, rfl⟩ := List.exists_cons_of_ne_nil (ne_nil_of_isName hn)
  have hx : Text.isNameStart x = true := (Bool.and_eq_true _ _ ▸ hn).1
  have hinline : Cursor.isInlineBlank x = false := by
    rw [Cursor.isInlineBlank, Bool.or_eq_false_iff]
    constructor <;> refine beq_eq_false_iff_ne.mpr ?_ <;> rintro rfl <;> cases hx
  obtain ⟨d, hskip, hd⟩ := takeWhile_run (show c.rest = [' '] ++ x :: (xs ++ ' ' :: tail) from h) (by decide) hinline
  obtain ⟨e, htake, he⟩ := takeWhile_run (show d.rest = (x :: xs) ++ ' ' :: tail from hd)
    (List.all_eq_true.mpr fun y hy => Text.isNameChar_of_isName hn hy) (show Text.isNameChar ' ' = false from rfl)
  refine ⟨e, ?_, he⟩
  rw [Cursor.skipInlineBlanks, Cursor.skipWhile, hskip, Cursor.name?, Cursor.nextIs, Cursor.peek?_eq hd]
  simp only [Option.any_some, hx, if_true, htake]

theorem elseKeyword?_atSign (h : c.rest = '@' :: tail) : elseKeyword? c = none := by
  have hblank : c.skipBlanks.rest = '@' :: tail := skipBlanks_rest [] h rfl (by decide)
  rw [elseKeyword?, show "else".toList = 'e' :: "lse".toList from rfl, keyword?_other hblank (by decide)]
  rfl

theorem elseKeyword?_else (h : c.rest = " else ".toList ++ x :: tail) (hx : Text.isBlank x = false) :
    ∃ d, elseKeyword? c = some d ∧ d.rest = x :: tail := by
  have hblank : c.skipBlanks.rest = "else".toList ++ ' ' :: x :: tail :=
    skipBlanks_rest [' '] h (by decide) (by decide)
  obtain ⟨d, hkeyword, hd⟩ := keyword?_word hblank (by decide)
  refine ⟨d.skipBlanks, ?_, skipBlanks_rest [' '] hd (by decide) hx⟩
  rw [elseKeyword?, hkeyword]
  rfl

end

/-! ### Bodies and alternatives -/

/-- The nodes are read back from their markup, up to the brace after it. -/
def Readable (ns : List Node) : Prop :=
  ∀ (fuel : Nat) (block : Block) (p : Progress) (rest : List Char), block.isTopLevel = false →
    p.cursor.rest = Node.printAll ns ++ '}' :: rest → p.cursor.rest.length < fuel →
    ∃ ns' q, bodyReader fuel block p = .ok (ns', q) ∧ Node.erasePlacesAll ns' = Node.erasePlacesAll ns ∧
      p.Comes [] rest q

/-- The condition is code, and the body is read back. -/
def Branch.Readable : Branch → Prop
  | .mk cond _ body => IsCode cond ∧ Markup.Readable body

/-- What follows the last condition and its body. -/
def elsePart : Option (List Node) → List Char
  | none => []
  | some body => " else ".toList ++ braced (Node.printAll body)

theorem elsePart_none : elsePart none = [] := rfl

theorem elsePart_some (body : List Node) : elsePart (some body) = " else ".toList ++ braced (Node.printAll body) := rfl

section
variable {c : Cursor} {ns : List Node} {rest : List Char} {fuel : Nat}

/-- A body in braces is read back, whatever was read before it. -/
theorem openBrace_body (hn : Readable ns) (what : String) (blanks : List Char) (hb : Text.allBlank blanks = true)
    (hr : c.rest = blanks ++ braced (Node.printAll ns) ++ rest) (hf : c.rest.length ≤ fuel) :
    ∃ opened d, openBrace what c = .ok (opened, d) ∧ ∀ (block : Block) (p : Progress), block.isTopLevel = false →
      ∃ ns' q, bodyReader fuel block { p with cursor := d } = .ok (ns', q) ∧
        Node.erasePlacesAll ns' = Node.erasePlacesAll ns ∧ p.Comes [] rest q := by
  have hbrace : c.rest = blanks ++ '{' :: (Node.printAll ns ++ '}' :: rest) := by simp [hr, braced]
  obtain ⟨opened, d, hopen, hd⟩ := openBrace_brace what hb hbrace
  refine ⟨opened, d, hopen, fun block p hblock => ?_⟩
  have hlt : d.rest.length < fuel := by
    rw [hbrace, List.length_append, List.length_cons] at hf
    rw [hd]
    omega
  obtain ⟨ns', q, hread, herase, hq⟩ := hn fuel block { p with cursor := d } rest hblock hd hlt
  exact ⟨ns', q, hread, herase, hq.of_cursor⟩

/-- What follows a condition and its body. -/
def afterBranch (bs : List Branch) (otherwise : Option (List Node)) : List Char :=
  if bs = [] then elsePart otherwise else " else ".toList ++ Branch.printAll bs ++ elsePart otherwise

theorem printAll_cons_elsePart (b : Branch) (bs : List Branch) (otherwise : Option (List Node)) :
    Branch.printAll (b :: bs) ++ elsePart otherwise = b.print ++ afterBranch bs otherwise := by
  cases bs with
  | nil => simp [Branch.printAll, afterBranch]
  | cons c bs => simp [Branch.printAll_cons, afterBranch]

theorem printAll_starts {bs : List Branch} (hne : bs ≠ []) :
    ∃ tail, Branch.printAll bs = "if".toList ++ ' ' :: tail := by
  obtain ⟨⟨cond, pos, body⟩, bs, rfl⟩ := List.exists_cons_of_ne_nil hne
  have h := printAll_cons_elsePart (.mk cond pos body) bs none
  rw [elsePart_none, List.append_nil] at h
  exact ⟨_, h⟩

/-- Reads a condition and its body. -/
def branchReader (body : BodyReader) (block : Block) (p : Progress) : Except Found (Branch × Progress) := do
  let (cond, c) ← parenthesized "if" p.cursor
  let (opened, c) ← openBrace "'if'" c
  let (nodes, p) ← body (block.inner opened "'if'") { p with cursor := c }
  return (.mk (String.ofList cond.text) cond.start nodes, p)

/-- After a condition and its body stands the end, another condition, or the last body. -/
theorem alternatives_succ (body : BodyReader) (block : Block) (bound : Nat) (p : Progress) :
    alternatives body block (bound + 1) p = do
      let (branch, p) ← branchReader body block p
      match elseKeyword? p.cursor with
      | none => return ([branch], none, p)
      | some c =>
        match c.keyword? "if".toList with
        | some c =>
          let (branches, otherwise, p) ← alternatives body block bound { p with cursor := c }
          return (branch :: branches, otherwise, p)
        | none =>
          let (opened, c) ← openBrace "'else'" c
          let (nodes, p) ← body (block.inner opened "'else'") { p with cursor := c }
          return ([branch], some nodes, p) := by
  rw [alternatives, branchReader]
  cases parenthesized "if" p.cursor with
  | error => rfl
  | ok r =>
    simp only [bind, Except.bind]
    cases openBrace "'if'" r.2 with
    | error => rfl
    | ok s =>
      dsimp only
      cases body (block.inner s.1 "'if'") { p with cursor := s.2 } <;> rfl

/-- A condition and its body are read back from what follows the keyword. -/
theorem branchReader_print (block : Block) {b : Branch} (hb : b.Readable) {p : Progress}
    (hr : "if".toList ++ p.cursor.rest = b.print ++ rest) (hf : p.cursor.rest.length ≤ fuel) :
    ∃ b' q, branchReader (bodyReader fuel) block p = .ok (b', q) ∧ b'.erasePlaces = b.erasePlaces ∧
      p.Comes [] rest q ∧ rest.length < p.cursor.rest.length := by
  obtain ⟨cond, pos, body⟩ := b
  obtain ⟨hcond, hbody⟩ := hb
  have hcode : p.cursor.rest = " (".toList ++ cond.toList ++ ')' :: ([' '] ++ braced (Node.printAll body) ++ rest) := by
    simpa [Branch.print] using hr
  obtain ⟨condPos, c, hparen, hc⟩ := parenthesized_code "if" hcond.nested hcond.trimmed hcond.notBlank hcode
  have hlt : c.rest.length ≤ fuel ∧ rest.length < p.cursor.rest.length := by
    rw [hcode] at hf ⊢
    rw [hc]
    simp only [List.length_append, List.length_cons, List.length_nil] at hf ⊢
    omega
  obtain ⟨opened, d, hopen, hbodies⟩ := openBrace_body hbody "'if'" [' '] (by decide) hc hlt.1
  obtain ⟨ns', q, hread, herase, hq⟩ := hbodies (block.inner opened "'if'") p rfl
  refine ⟨.mk cond condPos ns', q, ?_, ?_, hq, hlt.2⟩
  · simp only [branchReader, hparen, hopen, hread, bind, Except.bind, pure, Except.pure, String.ofList_toList]
  · rw [Branch.erasePlaces, Branch.erasePlaces, herase]

/-- The body of all other cases is read back, which is no further condition. -/
theorem otherwise_print (block : Block) (ho : Readable ns) {q : Progress}
    (hr : q.cursor.rest = elsePart (some ns) ++ '@' :: rest) (hf : q.cursor.rest.length ≤ fuel) :
    ∃ c opened d ms r, elseKeyword? q.cursor = some c ∧ c.keyword? "if".toList = none ∧
      openBrace "'else'" c = .ok (opened, d) ∧
      bodyReader fuel (block.inner opened "'else'") { q with cursor := d } = .ok (ms, r) ∧
      Node.erasePlacesAll ms = Node.erasePlacesAll ns ∧ q.Comes [] ('@' :: rest) r := by
  have hrest : q.cursor.rest = " else ".toList ++ '{' :: (Node.printAll ns ++ '}' :: '@' :: rest) := by
    simp [hr, elsePart_some, braced]
  obtain ⟨c, helse, hc⟩ := elseKeyword?_else hrest (by decide)
  have hle : c.rest.length ≤ fuel := by
    rw [hc]
    rw [hrest] at hf
    simp only [List.length_append, List.length_cons] at hf ⊢
    omega
  have hlast : c.rest = [] ++ braced (Node.printAll ns) ++ '@' :: rest := by simp [hc, braced]
  obtain ⟨opened, d, hopen, hbodies⟩ := openBrace_body ho "'else'" [] rfl hlast hle
  obtain ⟨ms, r, hread, herase, hcomes⟩ := hbodies (block.inner opened "'else'") q rfl
  exact ⟨c, opened, d, ms, r, helse, keyword?_other hc (by decide), hopen, hread, herase, hcomes⟩

/-- A further condition starts with both of its keywords. -/
theorem elseIf_print {bs : List Branch} (hne : bs ≠ []) {q : Progress}
    (hr : q.cursor.rest = " else ".toList ++ Branch.printAll bs ++ rest) :
    ∃ c d, elseKeyword? q.cursor = some c ∧ c.keyword? "if".toList = some d ∧
      "if".toList ++ d.rest = Branch.printAll bs ++ rest ∧ d.rest.length < q.cursor.rest.length := by
  obtain ⟨tail, htail⟩ := printAll_starts hne
  have hrest : q.cursor.rest = " else ".toList ++ 'i' :: ("f".toList ++ ' ' :: (tail ++ rest)) := by
    simp [hr, htail]
  obtain ⟨c, helse, hc⟩ := elseKeyword?_else hrest (by decide)
  obtain ⟨d, hif, hd⟩ := keyword?_word (show c.rest = "if".toList ++ ' ' :: _ from hc) (by decide)
  refine ⟨c, d, helse, hif, by simp [hd, htail], ?_⟩
  rw [hd, hrest]
  simp only [List.length_append, List.length_cons]
  omega

/-- Alternatives are read back from what follows their first keyword. -/
theorem alternatives_printAll (block : Block) {bs : List Branch} {otherwise : Option (List Node)} (hne : bs ≠ [])
    (hbs : ∀ b ∈ bs, b.Readable) (ho : ∀ ns ∈ otherwise, Readable ns) {bound : Nat} {p : Progress}
    (hr : "if".toList ++ p.cursor.rest = Branch.printAll bs ++ elsePart otherwise ++ '@' :: rest)
    (hf : p.cursor.rest.length ≤ fuel) (hbound : p.cursor.rest.length < bound) :
    ∃ bs' otherwise' q, alternatives (bodyReader fuel) block bound p = .ok (bs', otherwise', q) ∧
      Branch.erasePlacesAll bs' = Branch.erasePlacesAll bs ∧
      otherwise'.map Node.erasePlacesAll = otherwise.map Node.erasePlacesAll ∧ p.Comes [] ('@' :: rest) q := by
  induction bs generalizing p bound with
  | nil => exact absurd rfl hne
  | cons b bs ih =>
    obtain ⟨bound, rfl⟩ := Nat.exists_eq_add_one.mpr (Nat.zero_lt_of_lt hbound)
    rw [printAll_cons_elsePart, List.append_assoc] at hr
    obtain ⟨b', q, hbranch, herase, hq, hlt⟩ := branchReader_print block (hbs b List.mem_cons_self) hr hf
    rw [← hq.rest] at hlt
    rw [alternatives_succ, hbranch]
    cases bs with
    | nil =>
      cases otherwise with
      | none =>
        -- No alternative is left: the at sign is no keyword.
        refine ⟨[b'], none, q, ?_, ?_, rfl, hq⟩
        · simp only [elseKeyword?_atSign hq.rest, bind, Except.bind, pure, Except.pure]
        · simp only [Branch.erasePlacesAll, herase]
      | some last =>
        obtain ⟨c, opened, d, ms, r, helse, hif, hopen, hread, hms, hr⟩ :=
          otherwise_print block (ho last rfl) hq.rest (Nat.le_trans (Nat.le_of_lt hlt) hf)
        refine ⟨[b'], some ms, r, ?_, ?_, ?_, hq.trans hr⟩
        · simp only [helse, hif, hopen, hread, bind, Except.bind, pure, Except.pure]
        · simp only [Branch.erasePlacesAll, herase]
        · simp only [Option.map_some, hms]
    | cons a bs =>
      have hmore : a :: bs ≠ [] := List.cons_ne_nil a bs
      have hrest : q.cursor.rest = " else ".toList ++ Branch.printAll (a :: bs) ++ (elsePart otherwise ++ '@' :: rest) := by
        rw [hq.rest, afterBranch, if_neg hmore, List.append_assoc]
      obtain ⟨c, d, helse, hif, hd, hlt'⟩ := elseIf_print hmore hrest
      rw [← List.append_assoc] at hd
      obtain ⟨bs', otherwise', r, hread, hbs', ho', hr⟩ := ih hmore (fun b hb => hbs b (List.mem_cons_of_mem _ hb))
        (p := { q with cursor := d }) hd (show d.rest.length ≤ fuel by omega) (show d.rest.length < bound by omega)
      refine ⟨b' :: bs', otherwise', r, ?_, ?_, ho', hq.trans hr.of_cursor⟩
      · simp only [helse, hif, hread, bind, Except.bind, pure, Except.pure]
      · rw [Branch.erasePlacesAll, hbs', herase]
        rfl

end

/-! ### Code after an at sign -/

section
variable {body : BodyReader} {block : Block} {text : TextRun} {p : Progress} {tail rest : List Char} {x : Char}

theorem atSign_explicit (hr : p.cursor.rest = '@' :: '(' :: tail) {n : Node} {d : Cursor}
    (h : explicitExpression p.cursor.pos p.cursor.next = .ok (n, d)) :
    atSign body block {} p = .ok (.code [n] { p with cursor := d }) := by
  simp only [atSign, Cursor.peek?_eq (next_rest hr), h]
  rfl

theorem atSign_codeBlock (hr : p.cursor.rest = '@' :: '{' :: tail) {ns : List Node} {q : Progress}
    (h : codeBlock p.cursor.pos block { p with cursor := p.cursor.next } = .ok (ns, q)) :
    atSign body block text p = .ok (.code ns q) := by
  have hname : p.cursor.next.nextIs Text.isNameChar = false := by
    rw [Cursor.nextIs, Cursor.peek?_eq (next_rest hr)]
    rfl
  simp only [atSign, Cursor.peek?_eq (next_rest hr), hname, Bool.and_false, h]
  rfl

theorem atSign_named (hr : p.cursor.rest = '@' :: x :: tail) (hx : Text.isNameStart x = true) {ns : List Node}
    {q : Progress} (h : named body p.cursor.pos block { p with cursor := p.cursor.next } = .ok (ns, q)) :
    atSign body block {} p = .ok (.code ns q) := by
  have hword : (({} : TextRun).endsInWord && p.cursor.next.nextIs Text.isNameChar) = false := rfl
  have hpeek := Cursor.peek?_eq (next_rest hr)
  simp only [atSign, hword, hpeek, Bool.false_eq_true, if_false]
  split
  · contradiction
  -- An at sign, an asterisk, a parenthesis and a brace start no name.
  · rename_i hat
    cases hat
    cases hx
  · rename_i hat
    cases hat
    cases hx
  · rename_i hat
    cases hat
    cases hx
  · rename_i hat
    cases hat
    cases hx
  · rename_i hat
    cases hat
    simp only [hx, h]
    rfl

/-- The empty comment is skipped, and what was read of the text is kept. -/
theorem atSign_comment (body : BodyReader) (block : Block) (text : TextRun)
    (hr : p.cursor.rest = "@**@".toList ++ rest) :
    ∃ c, atSign body block text p = .ok (.comment c) ∧ c.rest = rest := by
  have hnext : p.cursor.next.rest = '*' :: '*' :: '@' :: rest := next_rest hr
  have hname : p.cursor.next.nextIs Text.isNameChar = false := by
    rw [Cursor.nextIs, Cursor.peek?_eq hnext]
    rfl
  obtain ⟨c, hend, hc⟩ : ∃ c, commentEnd? p.cursor.next.next.pos ('*' :: '@' :: rest) = some c ∧ c.rest = rest :=
    ⟨_, rfl, rfl⟩
  refine ⟨c, ?_, hc⟩
  simp only [atSign, Cursor.peek?_eq hnext, hname, Bool.and_false, next_rest hnext, hend]
  rfl

/-- An expression is its code. -/
theorem explicitExpression_code {c : Cursor} {code : String} (pos : SourcePos) (hc : IsCode code)
    (hr : c.rest = '(' :: (code.toList ++ ')' :: tail)) :
    ∃ pos' d, explicitExpression pos c = .ok (.expr code pos', d) ∧ d.rest = tail := by
  obtain ⟨start, d, hregion, hd⟩ := region_code pos "explicit expression" rfl hc.nested hr
  refine ⟨start.after (code.toList.takeWhile Text.isBlank), d, ?_, hd⟩
  simp only [explicitExpression, hregion, Fragment.trim, Fragment.isBlank, hc.trimmed, hc.notBlank, bind, Except.bind,
    Bool.false_eq_true, if_false, String.ofList_toList]
  rfl

/-- A code block before an at sign gives what its statements give. -/
theorem codeBlock_statements (block : Block) {w : List Char} {P : List Node → Prop} (pos : SourcePos) (hw : WellNested w)
    (hr : p.cursor.rest = '{' :: (w ++ '}' :: '@' :: rest))
    (hs : ∀ start, ∃ pieces ns, statements ⟨w, start⟩ .statementUnterminated = .ok pieces ∧
      pieces.foldlM (codeStatement block) (p.directives, []) = .ok (p.directives, ns) ∧ P ns) :
    ∃ ns q, codeBlock pos block p = .ok (ns, q) ∧ P ns ∧ p.Comes [] ('@' :: rest) q := by
  obtain ⟨start, d, hregion, hd⟩ := region_code pos "code block" rfl hw hr
  obtain ⟨pieces, ns, hpieces, hfold, hns⟩ := hs start
  refine ⟨ns, { p with cursor := d }, ?_, hns, .moved hd⟩
  simp only [codeBlock, hregion, hpieces, hfold, dropBlankLineEnd_atSign hd, ite_self, bind, Except.bind]
  rfl

theorem codeBlock_empty (block : Block) (pos : SourcePos) (hr : p.cursor.rest = '{' :: '}' :: '@' :: rest) :
    ∃ q, codeBlock pos block p = .ok ([], q) ∧ p.Comes [] ('@' :: rest) q := by
  obtain ⟨ns, q, hblock, rfl, hq⟩ := codeBlock_statements block (P := (· = [])) pos .nil hr fun start =>
    ⟨[], [], rfl, rfl, rfl⟩
  exact ⟨q, hblock, hq⟩

theorem codeBlock_var (block : Block) {name code : String} (pos : SourcePos) (hn : Text.isName name.toList = true)
    (hc : IsCode code) (hs : findTopLevel code.toList [';'] = none)
    (hr : p.cursor.rest = '{' :: (varStatement name code ++ [';'] ++ '}' :: '@' :: rest)) :
    ∃ pos' q, codeBlock pos block p = .ok ([.var name code pos'], q) ∧ p.Comes [] ('@' :: rest) q := by
  have hnested : WellNested (varStatement name code) := wellNested_binding hn hc (isPlain_of_all (by decide))
  have hsealed : Sealed (varStatement name code) := sealed_varStatement hn (sealed_of_findTopLevel hc.nested.closed hs)
  have hblank : Text.allBlank (varStatement name code) = false := rfl
  have htrim : Text.trim (varStatement name code) = varStatement name code := trim_binding hc _
  have hterminated : WellNested (varStatement name code ++ [';']) :=
    hnested.append (wellNested_plain (isPlain_of_all (by decide)))
  obtain ⟨ns, q, hblock, ⟨pos', rfl⟩, hq⟩ := codeBlock_statements block
    (P := fun ns => ∃ pos', ns = [.var name code pos']) pos hterminated hr fun start => by
      obtain ⟨start', hstatements⟩ :=
        statements_single start .statementUnterminated hnested.closed hsealed htrim hblank
      obtain ⟨pos', hstatement⟩ := codeStatement_varStatement block p.directives start' hn hc
      refine ⟨_, _, hstatements, ?_, pos', rfl⟩
      rw [List.foldlM_cons, hstatement]
      rfl
  exact ⟨pos', q, hblock, hq⟩

end

/-! ### Constructs -/

/-- Whatever was read before, this markup is read as the node, up to the at sign after it. -/
def Node.Spelled (top : Bool) (n : Node) (cs : List Char) : Prop :=
  ∀ (fuel : Nat) (block : Block) (p : Progress) (rest : List Char), block.isTopLevel = top →
    p.cursor.rest = '@' :: cs ++ '@' :: rest → p.cursor.rest.length ≤ fuel →
    (∀ name ∈ sectionNames [n], name ∉ p.sections.map (·.1)) →
    ∃ n' q, atSign (bodyReader fuel) block {} p = .ok (.code [n'] q) ∧ n'.erasePlaces = n.erasePlaces ∧
      p.Comes (sectionNames [n]) ('@' :: rest) q

section
variable {top : Bool} {pos : SourcePos} {body : List Node}

theorem spelled_expr {code : String} (hc : IsCode code) :
    Node.Spelled top (.expr code pos) ('(' :: code.toList ++ [')']) := by
  intro fuel block p rest _ hr _ _
  have hparen : p.cursor.rest = '@' :: '(' :: (code.toList ++ ')' :: '@' :: rest) := by simp [hr]
  obtain ⟨pos', d, hread, hd⟩ := explicitExpression_code p.cursor.pos hc (next_rest hparen)
  exact ⟨_, _, atSign_explicit hparen hread, rfl, .moved hd⟩

theorem spelled_var {name code : String} (hn : Text.isName name.toList = true) (hc : IsCode code)
    (hs : findTopLevel code.toList [';'] = none) :
    Node.Spelled top (.var name code pos) ('{' :: varStatement name code ++ ";\x7d".toList) := by
  intro fuel block p rest _ hr _ _
  have hbrace : p.cursor.rest = '@' :: '{' :: (varStatement name code ++ [';'] ++ '}' :: '@' :: rest) := by simp [hr]
  obtain ⟨pos', q, hread, hq⟩ := codeBlock_var block (p := { p with cursor := p.cursor.next }) p.cursor.pos
    hn hc hs (next_rest hbrace)
  exact ⟨_, q, atSign_codeBlock hbrace hread, rfl, hq.of_cursor⟩

theorem erasePlaces_ifElse (bs : List Branch) (otherwise : Option (List Node)) :
    (Node.ifElse bs otherwise).erasePlaces = .ifElse (Branch.erasePlacesAll bs) (otherwise.map Node.erasePlacesAll) := by
  cases otherwise <;> rfl

theorem spelled_ifElse {bs : List Branch} {otherwise : Option (List Node)} (hne : bs ≠ [])
    (hbs : ∀ b ∈ bs, b.Readable) (ho : ∀ ns ∈ otherwise, Readable ns) :
    Node.Spelled top (.ifElse bs otherwise) (Branch.printAll bs ++ elsePart otherwise) := by
  intro fuel block p rest _ hr hf _
  obtain ⟨tail, htail⟩ := printAll_starts hne
  have hat : p.cursor.rest = '@' :: 'i' :: ("f".toList ++ ' ' :: (tail ++ elsePart otherwise ++ '@' :: rest)) := by
    simp [hr, htail]
  obtain ⟨d, htake, hd⟩ := takeWhile_run (show p.cursor.next.rest = "if".toList ++ ' ' :: _ from next_rest hat)
    (by decide) (show Text.isNameChar ' ' = false from rfl)
  have hprinted : "if".toList ++ d.rest = Branch.printAll bs ++ elsePart otherwise ++ '@' :: rest := by
    simp [hd, htail]
  have hlt : d.rest.length ≤ fuel := by
    rw [hat] at hf
    rw [hd]
    simp only [List.length_append, List.length_cons] at hf ⊢
    omega
  obtain ⟨bs', otherwise', q, hread, hbs', ho', hq⟩ := alternatives_printAll (p := { p with cursor := d }) block hne hbs ho
    hprinted hlt (Nat.lt_succ_self _)
  refine ⟨.ifElse bs' otherwise', q, atSign_named hat rfl ?_, ?_, hq.of_cursor⟩
  · simp only [named, htake, String.ofList_toList, ifBlock, hread, bind, Except.bind]
    rfl
  · rw [erasePlaces_ifElse, hbs', ho', erasePlaces_ifElse]

theorem spelled_forEach {var source : String} (hn : Text.isName var.toList = true) (hi : var ≠ "in") (hc : IsCode source)
    (hb : Readable body) : Node.Spelled top (.forEach var source pos body)
      ("foreach (".toList ++ loopHeader var source ++ ") ".toList ++ braced (Node.printAll body)) := by
  intro fuel block p rest _ hr hf _
  have hat : p.cursor.rest = '@' :: 'f' :: ("oreach".toList ++ ' ' :: '(' :: (loopHeader var source ++
      ')' :: ' ' :: (braced (Node.printAll body) ++ '@' :: rest))) := by
    simp [hr]
  obtain ⟨d, htake, hd⟩ := takeWhile_run (show p.cursor.next.rest = "foreach".toList ++ ' ' :: _ from next_rest hat)
    (by decide) (show Text.isNameChar ' ' = false from rfl)
  have hheader : d.rest = " (".toList ++ loopHeader var source ++
      ')' :: ([' '] ++ braced (Node.printAll body) ++ '@' :: rest) := by
    simp [hd]
  have hnested : WellNested (loopHeader var source) := wellNested_binding hn hc (isPlain_of_all (by decide))
  have htrim : Text.trim (loopHeader var source) = loopHeader var source := trim_binding hc _
  have hblank : Text.allBlank (loopHeader var source) = false := rfl
  obtain ⟨start, e, hparen, he⟩ := parenthesized_code "foreach" hnested htrim hblank hheader
  obtain ⟨start', hloop⟩ := loopHeader?_loopHeader start hn hi hc
  have hlt : e.rest.length ≤ fuel := by
    rw [hat] at hf
    rw [he]
    simp only [List.length_append, List.length_cons, List.length_nil] at hf ⊢
    omega
  obtain ⟨opened, c, hopen, hbodies⟩ := openBrace_body hb "'foreach'" [' '] (by decide) he hlt
  obtain ⟨ns', q, hread, herase, hq⟩ := hbodies (block.inner opened "'foreach'") p rfl
  refine ⟨.forEach var source start' ns', q, atSign_named hat rfl ?_, ?_, hq⟩
  · simp only [named, htake, String.ofList_toList, forEachBlock, hparen, hloop, hopen, hread, bind, Except.bind]
    rfl
  · simp only [Node.erasePlaces, herase]

theorem spelled_section {name : String} (hn : Text.isName name.toList = true) (hb : Readable body) :
    Node.Spelled true (.sectionDef name pos body)
      ("section ".toList ++ name.toList ++ ' ' :: braced (Node.printAll body)) := by
  intro fuel block p rest hblock hr hf hnames
  obtain rfl : block = .topLevel := by
    cases block with
    | topLevel => rfl
    | nested => cases hblock
  have hat : p.cursor.rest = '@' :: 's' :: ("ection".toList ++ ' ' :: (name.toList ++ ' ' ::
      (braced (Node.printAll body) ++ '@' :: rest))) := by
    simp [hr]
  obtain ⟨d, htake, hd⟩ := takeWhile_run (show p.cursor.next.rest = "section".toList ++ ' ' :: _ from next_rest hat)
    (by decide) (show Text.isNameChar ' ' = false from rfl)
  obtain ⟨c, hname, hc⟩ := name?_name hn hd
  -- The template has no section of this name before.
  have hfresh : p.sections.find? (·.1 == name) = none := by
    refine List.find?_eq_none.mpr fun s hs hname => ?_
    exact hnames name List.mem_cons_self (List.mem_map.mpr ⟨s, hs, beq_iff_eq.mp hname⟩)
  have hlt : c.rest.length ≤ fuel := by
    rw [hat] at hf
    rw [hc]
    simp only [List.length_append, List.length_cons] at hf ⊢
    omega
  obtain ⟨opened, e, hopen, hbodies⟩ := openBrace_body hb s!"section '{name}'" [' '] (by decide) hc hlt
  obtain ⟨ns', q, hread, herase, hq⟩ := hbodies (.nested p.cursor.pos s!"section '{name}'" true)
    { p with sections := p.sections ++ [(name, p.cursor.pos)] } rfl
  refine ⟨.sectionDef name p.cursor.pos ns', { q with cursor := q.cursor.dropBlankLineEnd },
    atSign_named hat rfl ?_, ?_, ?_⟩
  · simp only [named, htake, String.ofList_toList, sectionBlock, Block.inSection, Block.isTopLevel, hname, hfresh, hopen,
      hread, bind, Except.bind]
    rfl
  · simp only [Node.erasePlaces, herase]
  · rw [dropBlankLineEnd_atSign hq.rest]
    refine ⟨hq.rest, hq.directives, hq.sections.trans ?_⟩
    simp [sectionNames]

end

/-! ### Nodes in a row -/

theorem erasePlacesAll_append (ns ms : List Node) :
    Node.erasePlacesAll (ns ++ ms) = Node.erasePlacesAll ns ++ Node.erasePlacesAll ms := by
  induction ns with
  | nil => rfl
  | cons n ns ih => rw [List.cons_append, Node.erasePlacesAll, ih, Node.erasePlacesAll, List.cons_append]

theorem ownText_cons (n : Node) (ns : List Node) : ownText (n :: ns) = ownText [n] ++ ownText ns := by
  cases n <;> simp [ownText]

/-- A text is not empty, and no text follows it. -/
theorem SeparateTexts.of_cons {n : Node} {ns : List Node} (h : SeparateTexts (n :: ns)) :
    SeparateTexts [n] ∧ SeparateTexts ns ∧ ∀ m ∈ ns.head?, ownText [n] = [] ∨ ownText [m] = [] := by
  cases n with
  | text text pos =>
    cases ns with
    | nil => exact ⟨h, trivial, by simp⟩
    | cons m ns =>
      cases m with
      | text => cases h
      | _ => exact ⟨h.1, h.2, by simp [ownText]⟩
  | _ => exact ⟨trivial, h, by simp [ownText]⟩

/-- Wherever the node stands, it is read from its markup, and what was read before it stays. A text does not follow
another one. -/
def Node.Steps (top : Bool) (n : Node) : Prop :=
  ∀ (block : Block) (s : Stage) (rest : List Char) (depth : Nat), block.isTopLevel = top → s.rest = n.print ++ rest →
    block.Deepens s.depth (ownText [n]) depth → SeparateTexts [n] → (s.text.chars = [] ∨ ownText [n] = []) →
    (∀ name ∈ sectionNames [n], name ∉ s.progress.sections.map (·.1)) →
    Leads block s fun t => t.depth = depth ∧ t.text.chars = (ownText [n]).reverse ∧
      Node.erasePlacesAll t.nodes = Node.erasePlacesAll (s.nodes ++ [n]) ∧
      s.progress.Comes (sectionNames [n]) rest t.progress

section
variable {top : Bool} {n : Node} {ns : List Node}

theorem steps_text (top : Bool) (text : String) (pos : SourcePos) : Node.Steps top (.text text pos) := by
  intro block s rest depth _ hr hd hs hempty _
  have hown : ownText [.text text pos] = text.toList := List.append_nil _
  have hne : text.toList ≠ [] := hs
  rw [hown] at hd hempty ⊢
  have hchars : s.text.chars = [] := hempty.resolve_right hne
  refine (leads_text hr hd).bind fun t ⟨hdepth, htext, hdone, hp⟩ => .here ?_
  rw [hchars, List.append_nil] at htext
  refine ⟨hdepth, htext, ?_, hp⟩
  simp [Stage.nodes, TextRun.closing, TextRun.nodes, htext, hdone, hchars, hne, erasePlacesAll_append, Node.erasePlacesAll,
    Node.erasePlaces]

/-- An empty code block ends the text before it. -/
theorem leads_emptyBlock {block : Block} {s : Stage} {rest : List Char}
    (hr : s.rest = '@' :: '{' :: '}' :: '@' :: rest) :
    Leads block s fun t => t.depth = s.depth ∧ t.text = {} ∧ t.done = s.text.nodes.reverse ++ s.done ∧
      s.progress.Comes [] ('@' :: rest) t.progress := by
  refine leads_atSign hr fun fuel _ => ?_
  obtain ⟨q, hread, hq⟩ := codeBlock_empty block (p := { s.progress with cursor := s.progress.cursor.next })
    s.progress.cursor.pos (next_rest hr)
  refine ⟨_, atSign_codeBlock hr hread, ⟨rfl, rfl, rfl, hq.of_cursor⟩, ?_⟩
  show q.cursor.rest.length < _
  rw [hq.rest, hr]
  simp

/-- An empty comment is left out. -/
theorem leads_emptyComment {block : Block} {s : Stage} {rest : List Char} (hr : s.rest = "@**@".toList ++ rest) :
    Leads block s fun t => t.depth = s.depth ∧ t.text = s.text ∧ t.done = s.done ∧
      s.progress.Comes [] rest t.progress := by
  refine leads_atSign hr fun fuel _ => ?_
  obtain ⟨c, hsign, hc⟩ := atSign_comment (bodyReader fuel) block s.text hr
  refine ⟨_, hsign, ⟨rfl, rfl, rfl, .moved hc⟩, ?_⟩
  have hchars : s.rest = '@' :: '*' :: '*' :: '@' :: rest := hr
  show c.rest.length < _
  rw [hc, hchars]
  simp only [List.length_cons]
  omega

/-- A construct is read up to the at sign after it. -/
theorem leads_spelled {block : Block} {s : Stage} {cs rest : List Char} (h : n.Spelled top cs)
    (hblock : block.isTopLevel = top) (htext : s.text = {}) (hr : s.rest = '@' :: cs ++ '@' :: rest)
    (hfresh : ∀ name ∈ sectionNames [n], name ∉ s.progress.sections.map (·.1)) :
    Leads block s fun t => t.depth = s.depth ∧ t.text = {} ∧
      (∃ n', n'.erasePlaces = n.erasePlaces ∧ t.done = n' :: s.done) ∧
      s.progress.Comes (sectionNames [n]) ('@' :: rest) t.progress := by
  refine leads_atSign hr fun fuel hfuel => ?_
  obtain ⟨n', q, hsign, herase, hq⟩ := h fuel block s.progress rest hblock hr hfuel hfresh
  rw [htext]
  refine ⟨_, hsign, ⟨rfl, rfl, ⟨n', herase, ?_⟩, hq⟩, ?_⟩
  · simp [Stage.after, htext, TextRun.nodes]
  · show q.cursor.rest.length < _
    rw [hq.rest, hr]
    simp only [List.length_append, List.length_cons]
    omega

/-- A construct is read between its empty code block and its empty comment. -/
theorem steps_framed {cs : List Char} (h : n.Spelled top cs) (hp : n.print = framed ('@' :: cs))
    (ht : ownText [n] = []) : n.Steps top := by
  intro block s rest depth hblock hr hd hs _ hfresh
  rw [ht] at hd ⊢
  have hbefore : s.rest = '@' :: '{' :: '}' :: '@' :: (cs ++ "@**@".toList ++ rest) := by simp [hr, hp, framed]
  refine (leads_emptyBlock hbefore).bind fun t ⟨htdepth, httext, htdone, htp⟩ => ?_
  have hcode : t.rest = '@' :: cs ++ '@' :: ("**@".toList ++ rest) := by
    rw [Stage.rest, htp.rest]
    simp
  have hfresh' : ∀ name ∈ sectionNames [n], name ∉ t.progress.sections.map (·.1) := by
    rwa [htp.sections, List.append_nil]
  refine (leads_spelled h hblock httext hcode hfresh').bind fun u ⟨hudepth, hutext, ⟨n', herase, hudone⟩, hup⟩ => ?_
  refine (leads_emptyComment hup.rest).bind fun v ⟨hvdepth, hvtext, hvdone, hvp⟩ => .here ?_
  refine ⟨?_, ?_, ?_, ?_⟩
  · rw [hvdepth, hudepth, htdepth, hd.nil]
  · rw [hvtext, hutext]
    rfl
  · simp [Stage.nodes, TextRun.closing, TextRun.nodes, hvtext, hutext, hvdone, hudone, htdone, erasePlacesAll_append,
      Node.erasePlacesAll, herase]
  · simpa using (htp.trans hup).trans hvp

/-- Nodes in a row are read one after the other. -/
theorem leads_printAll {block : Block} {s : Stage} {rest : List Char} {depth : Nat} (hblock : block.isTopLevel = top)
    (hn : ∀ n ∈ ns, n.Steps top) (hs : SeparateTexts ns) (hnodup : (sectionNames ns).Nodup)
    (hstart : ∀ n ∈ ns.head?, s.text.chars = [] ∨ ownText [n] = []) (hr : s.rest = Node.printAll ns ++ rest)
    (hd : block.Deepens s.depth (ownText ns) depth)
    (hfresh : ∀ name ∈ sectionNames ns, name ∉ s.progress.sections.map (·.1)) :
    Leads block s fun t => t.depth = depth ∧ Node.erasePlacesAll t.nodes = Node.erasePlacesAll (s.nodes ++ ns) ∧
      s.progress.Comes (sectionNames ns) rest t.progress := by
  induction ns generalizing s with
  | nil => exact .here ⟨hd.nil.symm, by rw [List.append_nil], ⟨hr, rfl, (List.append_nil _).symm⟩⟩
  | cons n ns ih =>
    obtain ⟨hfirst, hothers, hnext⟩ := hs.of_cons
    rw [ownText_cons] at hd
    rw [sectionNames_cons] at hfresh hnodup
    obtain ⟨d, hdn, hdns⟩ := hd.append
    obtain ⟨-, hnodup', hdisjoint⟩ := List.nodup_append.mp hnodup
    have hrest : s.rest = n.print ++ (Node.printAll ns ++ rest) := by simp [hr, Node.printAll]
    refine (hn n List.mem_cons_self block s _ d hblock hrest hdn hfirst (hstart n rfl) fun name hname =>
      hfresh name (List.mem_append_left _ hname)).bind fun t ⟨hdepth, htext, hnodes, hp⟩ => ?_
    -- A text starts a run of its own, for no text stands before it.
    have hstart' : ∀ m ∈ ns.head?, t.text.chars = [] ∨ ownText [m] = [] := fun m hm =>
      (hnext m hm).imp_left fun hown => by rw [htext, hown, List.reverse_nil]
    have hfresh' : ∀ name ∈ sectionNames ns, name ∉ t.progress.sections.map (·.1) := by
      intro name hname
      rw [hp.sections, List.mem_append, not_or]
      exact ⟨hfresh name (List.mem_append_right _ hname), fun h => hdisjoint name h name hname rfl⟩
    refine (ih (fun m hm => hn m (List.mem_cons_of_mem _ hm)) hothers hnodup' hstart' hp.rest (hdepth ▸ hdns)
      hfresh').bind fun u ⟨hdepth', hnodes', hp'⟩ => .here ⟨hdepth', ?_, ?_⟩
    · rw [hnodes', erasePlacesAll_append, hnodes, ← erasePlacesAll_append, List.append_assoc, List.singleton_append]
    · rw [sectionNames_cons]
      exact hp.trans hp'

/-- Sections stand at the top level only. -/
theorem sectionNames_eq_nil (hn : ∀ n ∈ ns, Printable false n) : sectionNames ns = [] := by
  induction ns with
  | nil => rfl
  | cons n ns ih =>
    rw [sectionNames_cons, ih fun m hm => hn m (List.mem_cons_of_mem _ hm), List.append_nil]
    cases hn n List.mem_cons_self <;> rfl

/-- A body is read back if its nodes are. -/
theorem readable_of_steps (hb : PrintableBody ns) (hn : ∀ n ∈ ns, n.Steps false) : Readable ns := by
  intro fuel block p rest hblock hr hf
  obtain ⟨hprintable, hseparate, hbraces⟩ := hb
  have hnames := sectionNames_eq_nil hprintable
  have hd : block.Deepens 0 (ownText ns) 0 := by
    cases block with
    | topLevel => cases hblock
    | nested => exact hbraces
  obtain ⟨fuel', t, ⟨hdepth, hnodes, hp⟩, hfuel, hread⟩ := leads_printAll (s := ⟨0, {}, [], p⟩) hblock hn hseparate
    (by simp [hnames]) (fun _ _ => .inl rfl) hr hd (by simp [hnames]) fuel hf
  obtain ⟨c, hend, hc⟩ := read_brace hblock hp.rest hdepth hfuel
  refine ⟨t.nodes, { t.progress with cursor := c }, hread.trans hend, hnodes, hc, hp.directives, ?_⟩
  rw [← hnames]
  exact hp.sections

end

/-! ### Templates -/

-- The recursion is over the tree: a node steps if the bodies in it can be read back, and a body can be read back if
-- its nodes step.
mutual

theorem Node.steps : (n : Node) → {top : Bool} → Printable top n → n.Steps top
  | .text text pos, top, _ => steps_text top text pos
  | .expr code pos, _, .expr _ _ hc => steps_framed (spelled_expr hc) rfl rfl
  | .var name code pos, _, .var _ _ hn hc hs => steps_framed (spelled_var hn hc hs) rfl rfl
  | .ifElse bs none, _, .ifOnly _ hne hb =>
    steps_framed (spelled_ifElse hne (Branch.readableAll bs hb) (by simp)) (by simp [Node.print, elsePart_none]) rfl
  | .ifElse bs (some body), _, .ifElse _ hne hb ho =>
    steps_framed (spelled_ifElse hne (Branch.readableAll bs hb) (by rintro _ ⟨⟩; exact Node.readable body ho))
      (by simp [Node.print, elsePart_some]) rfl
  | .forEach var source pos body, _, .forEach _ _ hn hi hc hb =>
    steps_framed (spelled_forEach hn hi hc (Node.readable body hb)) (by simp [Node.print, loopHeader_eq]) rfl
  | .sectionDef name pos body, _, .sectionDef _ hn hb =>
    steps_framed (spelled_section hn (Node.readable body hb)) (by simp [Node.print]) rfl

theorem Node.stepsAll : (ns : List Node) → {top : Bool} → (∀ n ∈ ns, Printable top n) → ∀ n ∈ ns, n.Steps top
  | [], _, _ => fun _ h => nomatch h
  | n :: ns, _, h => List.forall_mem_cons.mpr
    ⟨n.steps (h n List.mem_cons_self), Node.stepsAll ns fun m hm => h m (List.mem_cons_of_mem _ hm)⟩

theorem Node.readable : (body : List Node) → PrintableBody body → Readable body
  | body, h => readable_of_steps h (Node.stepsAll body (match h with | .mk hn _ _ => hn))

theorem Branch.readable : (b : Branch) → PrintableBranch b → b.Readable
  | .mk _ _ body, .mk _ hc hb => ⟨hc, Node.readable body hb⟩

theorem Branch.readableAll : (bs : List Branch) → (∀ b ∈ bs, PrintableBranch b) → ∀ b ∈ bs, b.Readable
  | [], _ => fun _ h => nomatch h
  | b :: bs, h => List.forall_mem_cons.mpr
    ⟨b.readable (h b List.mem_cons_self), Branch.readableAll bs fun c hc => h c (List.mem_cons_of_mem _ hc)⟩

end

/-- Parsing inverts printing: the printed template is read as the nodes it was printed from, up to places, and it has no
directives. -/
theorem parse_printAll (template : String) {nodes : List Node} (h : PrintableTemplate nodes) :
    ∃ nodes', parse template (String.ofList (Node.printAll nodes)) = .ok ⟨nodes', {}⟩ ∧
      Node.erasePlacesAll nodes' = Node.erasePlacesAll nodes := by
  have hleads : Leads .topLevel (.start (Node.printAll nodes)) _ :=
    leads_printAll (show Block.topLevel.isTopLevel = true from rfl) (Node.stepsAll nodes h.printable) h.texts h.sections
      (fun _ _ => .inl rfl) (List.append_nil _).symm ⟨rfl, rfl⟩ (fun _ _ h => nomatch h)
  obtain ⟨t, ⟨-, hnodes, hp⟩, hread⟩ := ofChars_of_leads hleads fun t ht => ht.2.2.rest
  refine ⟨t.nodes, ?_, hnodes⟩
  rw [parse, String.toList_ofList, hread, hp.directives]
  rfl

/-- A section with alternatives and a loop between a text and a variable. -/
def noticePage : List Node :=
  [.text "a@b \x7b" .start,
    .sectionDef "Side" .start
      [.text "\x7b\x7d " .start,
        .ifElse [.mk "open(\")\")" .start [.forEach "x" "items" .start [.expr "x" .start]], .mk "shut" .start []]
          (some [.text "@" .start])],
    .var "n" "f(1)" .start]

theorem noticePage_printable : PrintableTemplate noticePage := by
  have hletters : ∀ {cs : List Char}, cs.all (fun c => decide (IsPlain c)) = true → WellNested cs :=
    fun h => wellNested_plain (isPlain_of_all h)
  have hplain : ∀ {code : String}, Text.trim code.toList = code.toList → Text.allBlank code.toList = false →
      code.toList.all (fun c => decide (IsPlain c)) = true → IsCode code := fun ht hb hp => ⟨ht, hb, hletters hp⟩
  have hliteral : WellNested "(\")\")".toList :=
    .brackets (o := '(') rfl (.literal (.char (by decide) (by decide) (by decide) .close) .nil) .nil
  have hopen : IsCode "open(\")\")" :=
    ⟨by decide, by decide, (show WellNested "open".toList from hletters (by decide)).append hliteral⟩
  have hnumber : WellNested "(1)".toList :=
    .brackets (o := '(') rfl (show WellNested ['1'] from hletters (by decide)) .nil
  have hcall : IsCode "f(1)" :=
    ⟨by decide, by decide, (show WellNested "f".toList from hletters (by decide)).append hnumber⟩
  have hloop : PrintableBody [.forEach "x" "items" .start [.expr "x" .start]] := by
    refine .mk (List.forall_mem_singleton.mpr (.forEach _ _ (by decide) (by decide) ?_ ?_)) trivial rfl
    · exact hplain (by decide) (by decide) (by decide)
    · exact .mk (List.forall_mem_singleton.mpr (.expr _ _ (hplain (by decide) (by decide) (by decide)))) trivial rfl
  have hlast : PrintableBody [.text "@" .start] :=
    .mk (List.forall_mem_singleton.mpr (.text _ _ _)) (by simp [SeparateTexts]) rfl
  have hbranches : ∀ b ∈ [Branch.mk "open(\")\")" .start [.forEach "x" "items" .start [.expr "x" .start]],
      .mk "shut" .start []], PrintableBranch b :=
    List.forall_mem_cons.mpr ⟨.mk _ hopen hloop, List.forall_mem_singleton.mpr
      (.mk _ (hplain (by decide) (by decide) (by decide)) (.mk (fun _ h => nomatch h) trivial rfl))⟩
  have hside : PrintableBody [.text "\x7b\x7d " .start,
      .ifElse [.mk "open(\")\")" .start [.forEach "x" "items" .start [.expr "x" .start]], .mk "shut" .start []]
        (some [.text "@" .start])] :=
    .mk (List.forall_mem_cons.mpr ⟨.text _ _ _, List.forall_mem_singleton.mpr (.ifElse _ (by simp) hbranches hlast)⟩)
      (by simp [SeparateTexts]) (by decide)
  refine ⟨?_, by simp [noticePage, SeparateTexts], by decide⟩
  refine List.forall_mem_cons.mpr ⟨.text _ _ _, List.forall_mem_cons.mpr ⟨.sectionDef _ (by decide) hside, ?_⟩⟩
  exact List.forall_mem_singleton.mpr (.var _ _ (by decide) hcall (by decide))

theorem parse_printAll_noticePage : PrintableTemplate noticePage ∧
    ∃ nodes', parse "notice" (String.ofList (Node.printAll noticePage)) = .ok ⟨nodes', {}⟩ ∧
      Node.erasePlacesAll nodes' = Node.erasePlacesAll noticePage :=
  ⟨noticePage_printable, parse_printAll "notice" noticePage_printable⟩

end Stencil.Markup
