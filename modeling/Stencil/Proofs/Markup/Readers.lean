import Stencil.Proofs.Unit.Reading
import Stencil.Proofs.Markup.Stages

/-! What a reader of markup has read when it gives a result.

One lemma for each reader takes its result apart: the checks that were passed, what the readers inside of it gave, and
the result made of them. What is kept or found while a template is read follows from these, reader by reader. -/

namespace Stencil.Markup

theorem eq_ok_of_mapError {ε ε' α : Type} {x : Except ε α} {g : ε → ε'} {a : α} (h : x.mapError g = .ok a) :
    x = .ok a := by
  cases x with
  | error e => cases h
  | ok b =>
    cases h
    rfl

/-- What holds before a fold and is kept by each of its steps holds after it. -/
theorem foldlM_keeps {α β ε : Type} {step : β → α → Except ε β} {P : β → Prop} {xs : List α}
    (hstep : ∀ b x b', x ∈ xs → P b → step b x = .ok b' → P b') {b b' : β} (hb : P b)
    (h : xs.foldlM step b = .ok b') : P b' := by
  induction xs generalizing b with
  | nil =>
    cases h
    exact hb
  | cons x xs ih =>
    rw [List.foldlM_cons] at h
    obtain ⟨c, hc, h⟩ := Except.bind_eq_ok.mp h
    exact ih (fun b y b' hy => hstep b y b' (List.mem_cons_of_mem _ hy)) (hstep b x c List.mem_cons_self hb hc) h

section
variable {body : BodyReader} {block : Block} {p p' : Progress} {n : Node} {ns : List Node} {pos : SourcePos}
  {c d : Cursor} {f : Fragment}

/-! ### Expressions and conditions -/

theorem region_eq_ok {opened : SourcePos} {what : String} (h : region c opened what = .ok (f, d)) :
    balanced c = .ok (f, d) := eq_ok_of_mapError h

theorem implicitExpression_eq_ok (h : implicitExpression c = .ok (n, d)) : ∃ fuel tail,
    memberChain fuel (c.takeWhile Text.isNameChar).2 = .ok (tail, d) ∧
      n = .expr (String.ofList (c.rest.takeWhile Text.isNameChar ++ tail)) c.pos := by
  obtain ⟨⟨tail, d'⟩, htail, h⟩ := Except.bind_eq_ok.mp h
  cases h
  exact ⟨_, tail, htail, rfl⟩

theorem explicitExpression_eq_ok (h : explicitExpression pos c = .ok (n, d)) : ∃ inner, balanced c = .ok (inner, d) ∧
    ¬inner.trim.isBlank = true ∧ n = .expr (String.ofList inner.trim.text) inner.trim.start := by
  obtain ⟨⟨inner, d'⟩, hinner, h⟩ := Except.bind_eq_ok.mp h
  simp only [bind, Except.bind, pure, Except.pure, throw, throwThe, MonadExceptOf.throw] at h
  split at h
  · cases h
  · rename_i hb
    cases h
    exact ⟨inner, region_eq_ok hinner, hb, rfl⟩

theorem parenthesized_eq_ok {keyword : String} (h : parenthesized keyword c = .ok (f, d)) : ∃ inner,
    balanced c.skipBlanks = .ok (inner, d) ∧ ¬inner.trim.isBlank = true ∧ f = inner.trim := by
  simp only [parenthesized, bind, Except.bind, pure, Except.pure, throw, throwThe, MonadExceptOf.throw] at h
  split at h
  · cases h
  · split at h
    · cases h
    · rename_i r hr
      split at h
      · cases h
      · rename_i hb
        cases h
        exact ⟨_, region_eq_ok hr, hb, rfl⟩

theorem openBrace_eq_ok {what : String} (h : openBrace what c = .ok (pos, d)) : c.skipBlanks.eat? '{' = some d := by
  unfold openBrace at h
  dsimp only at h
  split at h
  · rename_i he
    cases h
    exact he
  · cases h

/-! ### Control blocks -/

/-- An alternative is the last one, or one follows behind `else if`, or a body behind `else`. -/
theorem alternatives_eq_ok {fuel : Nat} {bs : List Branch} {o : Option (List Node)}
    (h : alternatives body block (fuel + 1) p = .ok (bs, o, p')) : ∃ cond c opened c' ns q,
      parenthesized "if" p.cursor = .ok (cond, c) ∧ openBrace "'if'" c = .ok (opened, c') ∧
      body (block.inner opened "'if'") { p with cursor := c' } = .ok (ns, q) ∧
      ((bs = [.mk (String.ofList cond.text) cond.start ns] ∧ o = none ∧ p' = q) ∨
        (∃ d e bs', elseKeyword? q.cursor = some d ∧ d.keyword? "if".toList = some e ∧
          alternatives body block fuel { q with cursor := e } = .ok (bs', o, p') ∧
          bs = .mk (String.ofList cond.text) cond.start ns :: bs') ∨
        ∃ d opened' e ms, elseKeyword? q.cursor = some d ∧ openBrace "'else'" d = .ok (opened', e) ∧
          body (block.inner opened' "'else'") { q with cursor := e } = .ok (ms, p') ∧
          bs = [.mk (String.ofList cond.text) cond.start ns] ∧ o = some ms) := by
  obtain ⟨⟨cond, c⟩, hcond, h⟩ := Except.bind_eq_ok.mp h
  obtain ⟨⟨opened, c'⟩, hopen, h⟩ := Except.bind_eq_ok.mp h
  obtain ⟨⟨ns, q⟩, hns, h⟩ := Except.bind_eq_ok.mp h
  refine ⟨cond, c, opened, c', ns, q, hcond, hopen, hns, ?_⟩
  dsimp only at h
  split at h
  · cases h
    exact .inl ⟨rfl, rfl, rfl⟩
  · rename_i d hd
    split at h
    · rename_i e he
      obtain ⟨⟨bs', o', q'⟩, hrest, h⟩ := Except.bind_eq_ok.mp h
      cases h
      exact .inr (.inl ⟨d, e, bs', hd, he, hrest, rfl⟩)
    · obtain ⟨⟨opened', e⟩, hopen', h⟩ := Except.bind_eq_ok.mp h
      obtain ⟨⟨ms, q'⟩, hms, h⟩ := Except.bind_eq_ok.mp h
      cases h
      exact .inr (.inr ⟨d, opened', e, ms, hd, hopen', hms, rfl, rfl⟩)

theorem ifBlock_eq_ok (h : ifBlock body block p = .ok (n, p')) : ∃ fuel bs o,
    alternatives body block fuel p = .ok (bs, o, p') ∧ n = .ifElse bs o := by
  obtain ⟨⟨bs, o, q⟩, halt, h⟩ := Except.bind_eq_ok.mp h
  cases h
  exact ⟨_, bs, o, halt, rfl⟩

theorem forEachBlock_eq_ok (h : forEachBlock body block p = .ok (n, p')) : ∃ header c var source opened c' ns,
    parenthesized "foreach" p.cursor = .ok (header, c) ∧ loopHeader? header = some (var, source) ∧
      openBrace "'foreach'" c = .ok (opened, c') ∧
      body (block.inner opened "'foreach'") { p with cursor := c' } = .ok (ns, p') ∧
      n = .forEach (String.ofList var) (String.ofList source.text) source.start ns := by
  obtain ⟨⟨header, c⟩, hheader, h⟩ := Except.bind_eq_ok.mp h
  dsimp only at h
  split at h
  · cases h
  · rename_i var source hloop
    obtain ⟨⟨opened, c'⟩, hopen, h⟩ := Except.bind_eq_ok.mp h
    obtain ⟨⟨ns, q⟩, hns, h⟩ := Except.bind_eq_ok.mp h
    cases h
    exact ⟨header, c, var, source, opened, c', ns, hheader, hloop, hopen, hns, rfl⟩

/-- A section stands at the top level, and none with its name was met before. -/
theorem sectionBlock_eq_ok (h : sectionBlock body pos block p = .ok (n, p')) :
    block.isTopLevel = true ∧ ∃ name c label opened c' ns q,
      p.cursor.skipInlineBlanks.name? = some (name, c) ∧ String.ofList name ∉ p.sections.map (·.1) ∧
      openBrace label c = .ok (opened, c') ∧
      body (.nested pos label true) { p with cursor := c', sections := p.sections ++ [(String.ofList name, pos)] } =
        .ok (ns, q) ∧
      n = .sectionDef (String.ofList name) pos ns ∧ p' = { q with cursor := q.cursor.dropBlankLineEnd } := by
  simp only [sectionBlock, throw, throwThe, MonadExceptOf.throw] at h
  split at h
  · cases h
  · split at h
    · cases h
    · rename_i htop
      dsimp only [bind, Except.bind] at h
      split at h
      · cases h
      · rename_i name c hname
        split at h
        · cases h
        · rename_i hnew
          obtain ⟨⟨opened, c'⟩, hopen, h⟩ := Except.bind_eq_ok.mp h
          obtain ⟨⟨ns, q⟩, hns, h⟩ := Except.bind_eq_ok.mp h
          cases h
          refine ⟨by simpa using htop, name, c, _, opened, c', ns, q, hname, fun hmem => ?_, hopen, hns, rfl, rfl⟩
          obtain ⟨s, hs, hsame⟩ := List.mem_map.mp hmem
          exact absurd (beq_iff_eq.mpr hsame) (List.find?_eq_none.mp hnew s hs)

/-! ### Directives, functions and code blocks -/

theorem lineDirective_eq_ok {keyword : String} (h : lineDirective keyword pos block p = .ok p') : ∃ value ds,
    directiveValue keyword (Text.trim p.cursor.skipInlineBlanks.line.1) = .ok value ∧
      p.directives.add? keyword ⟨String.ofList value, p.cursor.skipInlineBlanks.pos⟩ = some ds ∧
      p' = { p with directives := ds, cursor := p.cursor.skipInlineBlanks.line.2.next } := by
  simp only [lineDirective, throw, throwThe, MonadExceptOf.throw] at h
  split at h
  · cases h
  · dsimp only [bind, Except.bind] at h
    split at h
    · cases h
    · split at h
      · cases h
      · rename_i value hvalue
        split at h
        · rename_i ds hds
          cases h
          exact ⟨value, ds, eq_ok_of_mapError hvalue, hds, rfl⟩
        · cases h

theorem functionsBlock_eq_ok (h : functionsBlock pos block p = .ok p') : ∃ inner c pieces ds,
    balanced p.cursor.skipBlanks = .ok (inner, c) ∧ statements inner .functionUnterminated = .ok pieces ∧
      pieces.foldlM addFunction p.directives = .ok ds ∧
      p' = { p with directives := ds, cursor := c.dropBlankLineEnd } := by
  simp only [functionsBlock, throw, throwThe, MonadExceptOf.throw] at h
  split at h
  · cases h
  · split at h
    · cases h
    · obtain ⟨⟨inner, c⟩, hinner, h⟩ := Except.bind_eq_ok.mp h
      obtain ⟨pieces, hpieces, h⟩ := Except.bind_eq_ok.mp h
      obtain ⟨ds, hds, h⟩ := Except.bind_eq_ok.mp h
      cases h
      exact ⟨inner, c, pieces, ds, region_eq_ok hinner, hpieces, hds, rfl⟩

/-- A statement assigns the layout or declares a variable. -/
theorem codeStatement_eq_ok {acc acc' : Directives × List Node} {statement : Fragment}
    (h : codeStatement block acc statement = .ok acc') : ∃ target value,
      assignment? statement = some (target, value) ∧ ¬value.isBlank = true ∧
      ((∃ ds, assignLayout statement.start value block acc.1 = .ok ds ∧ acc' = (ds, acc.2)) ∨
        ∃ name, Text.isName name = true ∧
          acc' = (acc.1, acc.2 ++ [.var (String.ofList name) (String.ofList value.text) value.start])) := by
  simp only [codeStatement, throw, throwThe, MonadExceptOf.throw] at h
  split at h
  · cases h
  · rename_i target value hassign
    split at h
    · cases h
    · rename_i hb
      refine ⟨target, value, hassign, hb, ?_⟩
      split at h
      · obtain ⟨ds, hds, h⟩ := Except.bind_eq_ok.mp h
        cases h
        exact .inl ⟨ds, hds, rfl⟩
      · dsimp only [bind, Except.bind] at h
        split at h
        · cases h
        · split at h
          · cases h
          · rename_i name _ hname
            cases h
            exact .inr ⟨name, by simpa using hname, rfl⟩

theorem codeBlock_eq_ok (h : codeBlock pos block p = .ok (ns, p')) : ∃ inner c pieces ds,
    balanced p.cursor = .ok (inner, c) ∧ statements inner .statementUnterminated = .ok pieces ∧
      pieces.foldlM (codeStatement block) (p.directives, []) = .ok (ds, ns) ∧
      p' = { p with directives := ds, cursor := if block.isTopLevel then c.dropBlankLineEnd else c } := by
  obtain ⟨⟨inner, c⟩, hinner, h⟩ := Except.bind_eq_ok.mp h
  obtain ⟨pieces, hpieces, h⟩ := Except.bind_eq_ok.mp h
  obtain ⟨⟨ds, ns'⟩, hfold, h⟩ := Except.bind_eq_ok.mp h
  cases h
  exact ⟨inner, c, pieces, ds, region_eq_ok hinner, hpieces, hfold, rfl⟩

/-! ### Code after an at sign -/

/-- A construct that gives one node. -/
theorem exists_of_map_singleton {r : Except Found (Node × Progress)} (h : r.map (fun r => ([r.1], r.2)) = .ok (ns, p')) :
    ∃ n, r = .ok (n, p') ∧ ns = [n] := by
  cases r with
  | error e => cases h
  | ok r =>
    cases h
    exact ⟨r.1, rfl, rfl⟩

/-- What starts with a name is a control block behind its keyword, a directive or a block of functions behind theirs, or
an expression. -/
theorem named_eq_ok (h : named body pos block p = .ok (ns, p')) : ∃ after : Progress,
    after = { p with cursor := (p.cursor.takeWhile Text.isNameChar).2 } ∧
      ((∃ n, ns = [n] ∧ (ifBlock body block after = .ok (n, p') ∨ forEachBlock body block after = .ok (n, p') ∨
          sectionBlock body pos block after = .ok (n, p'))) ∨
        (ns = [] ∧ (functionsBlock pos block after = .ok p' ∨ ∃ keyword, lineDirective keyword pos block after = .ok p')) ∨
        ∃ n c, ns = [n] ∧ implicitExpression p.cursor = .ok (n, c) ∧ p' = { p with cursor := c }) := by
  refine ⟨_, rfl, ?_⟩
  simp only [named, throw, throwThe, MonadExceptOf.throw] at h
  split at h
  · obtain ⟨n, hn, rfl⟩ := exists_of_map_singleton h
    exact .inl ⟨n, rfl, .inl hn⟩
  · obtain ⟨n, hn, rfl⟩ := exists_of_map_singleton h
    exact .inl ⟨n, rfl, .inr (.inl hn)⟩
  · obtain ⟨n, hn, rfl⟩ := exists_of_map_singleton h
    exact .inl ⟨n, rfl, .inr (.inr hn)⟩
  · obtain ⟨q, hq, h⟩ := Except.bind_eq_ok.mp h
    cases h
    exact .inr (.inl ⟨rfl, .inl hq⟩)
  -- The directives that take the rest of their line.
  iterate 4
    obtain ⟨q, hq, h⟩ := Except.bind_eq_ok.mp h
    cases h
    exact .inr (.inl ⟨rfl, .inr ⟨_, hq⟩⟩)
  · cases h
  · split at h
    · cases h
    · obtain ⟨⟨n, c⟩, hn, h⟩ := Except.bind_eq_ok.mp h
      cases h
      exact .inr (.inr ⟨n, c, rfl, hn, rfl⟩)

theorem commentEnd?_reads {cs : List Char} (h : commentEnd? pos cs = some d) : ∃ r, Cursor.Reads ⟨cs, pos⟩ r d := by
  induction cs generalizing pos with
  | nil => cases h
  | cons c cs ih =>
    unfold commentEnd? at h
    split at h
    · cases h
      exact ⟨_, (Cursor.reads_cons c cs pos).trans (Cursor.reads_skip ⟨cs, pos.next c⟩ 1)⟩
    · obtain ⟨r, hr⟩ := ih h
      exact ⟨_, (Cursor.reads_cons c cs pos).trans hr⟩

/-- An at sign starts text or a comment, an expression between parentheses, a code block, or what starts with a name. -/
theorem atSign_eq_ok {run : TextRun} {sign : AtSign} (h : atSign body block run p = .ok sign) :
    (∃ c r, p.cursor.Reads r c ∧ (sign = .literal c ∨ sign = .comment c)) ∨
      (∃ n c, p.cursor.next.peek? = some '(' ∧ explicitExpression p.cursor.pos p.cursor.next = .ok (n, c) ∧
        sign = .code [n] { p with cursor := c }) ∨
      (∃ ns q, codeBlock p.cursor.pos block { p with cursor := p.cursor.next } = .ok (ns, q) ∧ sign = .code ns q) ∨
      ∃ ns q, p.cursor.next.nextIs Text.isNameStart = true ∧
        named body p.cursor.pos block { p with cursor := p.cursor.next } = .ok (ns, q) ∧ sign = .code ns q := by
  have hnext : p.cursor.Reads _ p.cursor.next := Cursor.reads_skip _ 1
  have hnext₂ : p.cursor.Reads _ p.cursor.next.next := hnext.trans (Cursor.reads_skip _ 1)
  simp only [atSign, throw, throwThe, MonadExceptOf.throw] at h
  split at h
  · cases h
    exact .inl ⟨_, _, hnext, .inl rfl⟩
  · dsimp only [bind, Except.bind] at h
    split at h
    · cases h
    · cases h
      exact .inl ⟨_, _, hnext₂, .inl rfl⟩
    · split at h
      · rename_i c hc
        cases h
        obtain ⟨r, hr⟩ := commentEnd?_reads hc
        exact .inl ⟨c, _, hnext₂.trans hr, .inr rfl⟩
      · cases h
    · rename_i hopen
      obtain ⟨⟨n, c⟩, hn, h⟩ := Except.bind_eq_ok.mp h
      cases h
      exact .inr (.inl ⟨n, c, hopen, hn, rfl⟩)
    · obtain ⟨⟨ns, q⟩, hns, h⟩ := Except.bind_eq_ok.mp h
      cases h
      exact .inr (.inr (.inl ⟨ns, q, hns, rfl⟩))
    · rename_i x _ _ _ _ hx
      split at h
      · cases h
      · rename_i hstart
        obtain ⟨⟨ns, q⟩, hns, h⟩ := Except.bind_eq_ok.mp h
        cases h
        exact .inr (.inr (.inr ⟨ns, q, by rw [Cursor.nextIs, hx]; simpa using hstart, hns, rfl⟩))

/-! ### Blocks -/

/-- A block ends, or it goes on behind text or a comment, or behind code whose nodes are added to those before it. -/
theorem blockNodes_eq_ok {fuel depth : Nat} {run : TextRun} {done : List Node}
    (h : blockNodes (fuel + 1) block depth run done p = .ok (ns, p')) :
    (∃ c r, p.cursor.Reads r c ∧ ns = run.closing done ∧ p' = { p with cursor := c }) ∨
      (∃ c r depth' run', p.cursor.Reads r c ∧
        blockNodes fuel block depth' run' done { p with cursor := c } = .ok (ns, p')) ∨
      ∃ ms q, p.cursor.peek? = some '@' ∧ atSign (bodyReader fuel) block run p = .ok (.code ms q) ∧
        blockNodes fuel block depth {} (ms.reverse ++ run.nodes.reverse ++ done) q = .ok (ns, p') := by
  have hnext : p.cursor.Reads _ p.cursor.next := Cursor.reads_skip _ 1
  unfold blockNodes at h
  dsimp only at h
  split at h
  · split at h
    · cases h
      exact .inl ⟨_, _, .refl _, rfl, rfl⟩
    · cases h
  · rename_i hat
    obtain ⟨sign, hsign, h⟩ := Except.bind_eq_ok.mp h
    cases sign with
    | literal c | comment c =>
      obtain ⟨c', r, hr, hc | hc⟩ | ⟨_, _, -, -, hc⟩ | ⟨_, _, -, hc⟩ | ⟨_, _, -, -, hc⟩ := atSign_eq_ok hsign
      all_goals cases hc
      exact .inr (.inl ⟨_, r, _, _, hr, h⟩)
    | code ms q => exact .inr (.inr ⟨ms, q, hat, hsign, h⟩)
  · split at h
    · exact .inr (.inl ⟨_, _, _, _, hnext, h⟩)
    · split at h
      · exact .inr (.inl ⟨_, _, _, _, hnext, h⟩)
      · split at h
        · split at h
          · cases h
            exact .inl ⟨_, _, hnext, rfl, rfl⟩
          · exact .inr (.inl ⟨_, _, _, _, hnext, h⟩)
        · exact .inr (.inl ⟨_, _, _, _, hnext, h⟩)

end

end Stencil.Markup
