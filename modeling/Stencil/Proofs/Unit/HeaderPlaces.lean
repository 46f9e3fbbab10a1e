import Stencil.Compile.Compiler
import Stencil.Proofs.Unit.Headers
import Stencil.Proofs.Unit.Modules
import Stencil.Proofs.Unit.TokenPlaces

/-! Where the names in the header of a class map to.

The base type and the model type of a class stand on one line, which has one pragma. -/

namespace Stencil

namespace Unit

open Grammar (IsSymbol IsWord IsName IsPath IsSpace IsVisibility)
open Markup (Directive Document)

/-! ### The names among the tokens -/

section
variable {ls : List Lexeme} {n : Named} {t : Tree}

/-- A path stands where its first name does. -/
theorem startAt_path (h : IsPath ls n) : StartAt ls n.pos := by
  induction h with
  | name hn => exact ⟨_, [], rfl, by rw [hn]⟩
  | dot _ _ _ ih => exact ih.append _

/-- What is read names its base type behind the first colon, and its model type behind the first angle bracket. -/
theorem header_of_ofLexemes (h : Tree.ofLexemes ls = .ok t) :
    ∃ front c bs lt ps rest, ls = front ++ c :: (bs ++ lt :: (ps ++ rest)) ∧ (∀ s, s ≠ .dot → s ≠ .semicolon → Lacks s front) ∧
      IsSymbol .colon c ∧ IsPath bs t.decl.base ∧ IsSymbol .less lt ∧ IsPath ps t.decl.model := by
  cases Marked.isUnit_of_ofLexemes h with
  | @mk _ _ _ _ es _ _ _ _ _ _ _ hm hs hu hc _ =>
    cases hc with
    | @mk _ _ _ _ _ bs ps ms qs k l c lt gt o e _ _ _ _ hp hv hk hn hcolon hb hl hmodel =>
      have hfront := fun s hdot hend => lacks_append (lacks_marks (s := s) hm) (lacks_append (lacks_space hs hdot hend)
        (lacks_append (lacks_usings hu hdot hend) (lacks_append (lacks_marks hp) (lacks_append (lacks_visibility hv)
          (lacks_cons (not_symbol_word hk) (lacks_cons (not_symbol_name hn) lacks_nil))))))
      refine ⟨_, c, bs, lt, ps, gt :: o :: (ms ++ (qs ++ e :: es)), ?_, hfront, hcolon, hb, hl, hmodel⟩
      simp

end

/-! ### The line of the header -/

/-- What stands before the name of the base type. -/
def headerStart (name : String) : List Char :=
  "internal".toList ++ ' ' :: ("class".toList ++ ' ' :: (name.toList ++ [' ', ':', ' ']))

theorem headerStart_append (name : String) (cs : List Char) : headerStart name ++ cs =
    "internal".toList ++ ' ' :: ("class".toList ++ ' ' :: (name.toList ++ ' ' :: ':' :: ' ' :: cs)) := by
  have heq : headerStart name = "internal".toList ++ ' ' :: ("class".toList ++ ' ' :: (name.toList ++ [' ', ':', ' '])) := rfl
  simp only [heq, List.append_assoc, List.cons_append, List.nil_append]

theorem after_headerStart (p : SourcePos) (name : String) (cs : List Char) : p.after (headerStart name ++ cs) =
    (((((((((p.after "internal".toList).next ' ').after "class".toList).next ' ').after name.toList).next ' ').next ':').next
      ' ').after cs) := by
  simp only [headerStart_append, SourcePos.after_append, SourcePos.after_cons]

section
variable {b : Bool} {p : SourcePos} {name base model : String} {rest : List Char} {us ls : List Lexeme} {t : Tree}

/-- The tokens of the header stand where they start. -/
theorem Lexed.header (hn : Text.isName name.toList = true) (hb : Text.isDottedName base.toList = true)
    (h : Lexed b ⟨headerStart name ++ (base.toList ++ '<' :: rest), p⟩ ls) :
    ∃ front c bs lt ps, ls = front ++ c :: (bs ++ lt :: ps) ∧ (∀ s, Lacks s front) ∧ IsSymbol .colon c ∧
      StartAt bs (p.after (headerStart name)) ∧
      (∀ l ∈ bs, (∃ w, l.token = .name w) ∨ IsSymbol .dot l) ∧ IsSymbol .less lt ∧
      Lexed false ⟨rest, p.after (headerStart name ++ (base.toList ++ ['<']))⟩ ps := by
  have hless : ∀ d ∈ ('<' :: rest).head?, Text.isNameChar d = false := by
    rintro _ ⟨⟩
    decide
  rw [headerStart_append] at h
  obtain ⟨_, rfl, h₁⟩ := h.name (by decide) head?_blank
  obtain ⟨_, rfl, h₂⟩ := h₁.space.name (by decide) head?_blank
  obtain ⟨_, rfl, h₃⟩ := h₂.space.name hn head?_blank
  obtain ⟨_, rfl, h₄⟩ := h₃.space.symbol (x := ':') (s := .colon) (by decide) rfl rfl
  obtain ⟨bs, _, rfl, hhead, hnames, h₅⟩ := h₄.space.path hb hless
  obtain ⟨ps, rfl, h₆⟩ := h₅.symbol (x := '<') (s := .less) (by decide) rfl rfl
  refine ⟨[_, _, _], _, bs, _, ps, rfl, fun s => ?_, rfl, ?_, hnames, rfl, ?_⟩
  · exact lacks_cons (not_symbol_word rfl) (lacks_cons (not_symbol_word rfl) (lacks_cons (not_symbol_word rfl) lacks_nil))
  · rw [← List.append_nil (headerStart name), after_headerStart]
    exact hhead
  · rw [after_headerStart, SourcePos.after_append]
    exact h₆

/-- The names of the base type and of the model type are the ones in the header. -/
theorem decl_pos (hn : Text.isName name.toList = true) (hb : Text.isDottedName base.toList = true)
    (hus : ∀ s, s ≠ .dot → s ≠ .semicolon → Lacks s us)
    (h : Lexed b ⟨headerStart name ++ (base.toList ++ '<' :: (model.toList ++ '>' :: rest)), p⟩ ls)
    (ht : Tree.ofLexemes (us ++ ls) = .ok t) :
    t.decl.base.pos = p.after (headerStart name) ∧ (Text.isDottedName model.toList = true →
      t.decl.model.pos = p.after (headerStart name ++ (base.toList ++ ['<']))) := by
  obtain ⟨front, c, bs, lt, ps, rfl, hfront, hc, hhead, hnames, hlt, hmodel⟩ := h.header hn hb
  obtain ⟨front', c', bs', lt', ps', rest', hls, hfront', hc', hbase', hlt', hmodel'⟩ := header_of_ofLexemes ht
  have hbases : bs ++ lt :: ps = bs' ++ lt' :: (ps' ++ rest') := by
    refine eq_of_lacks (lacks_append (hus .colon nofun nofun) (hfront _)) (hfront' _ nofun nofun) hc hc' ?_
    rw [← hls, List.append_assoc]
  have hmodels : ps = ps' ++ rest' :=
    eq_of_lacks (s := .less) (lacks_names hnames nofun) (lacks_path hbase' nofun) hlt hlt' hbases
  constructor
  · have h := hhead.append (lt :: ps)
    rw [hbases] at h
    exact ((startAt_path hbase').append _).unique h
  · intro hdotted
    have hgreater : ∀ d ∈ ('>' :: rest).head?, Text.isNameChar d = false := by
      rintro _ ⟨⟩
      decide
    obtain ⟨ms, qs, rfl, hm, -, -⟩ := hmodel.path hdotted hgreater
    have h := hm.append qs
    rw [hmodels] at h
    exact ((startAt_path hmodel').append _).unique h

end

/-! ### The header in its unit -/

theorem newline_not_mem_headerStart {name : String} (hn : Text.isName name.toList = true) : '\n' ∉ headerStart name := by
  have hname := not_mem_newline_of_isName hn
  rw [← List.append_nil (headerStart name), headerStart_append]
  simp [hname]

theorem newline_not_mem_dotted {name : String} (hn : Text.isDottedName name.toList = true) : '\n' ∉ name.toList := by
  rw [← toList_singleLine_path hn, Line.toList_singleLine]
  exact Line.map_oneLine_of_not_mem _

/-- A pragma ends with a digit. -/
theorem Pragma.getLast?_text (q : Pragma) : q.text.toList.getLast? ≠ some '\\' := by
  rw [toList_text, ← List.append_assoc, List.getLast?_append_of_ne_nil _ (Json.digitsOf_ne_nil _)]
  exact fun h => absurd (Json.isDigit_of_mem_digitsOf (List.mem_of_getLast? h)) (by decide)

section
variable {key source text : String} {bases : List BaseType} {context : TypeContext} {d : Declared} {nodes : List Markup.Node}
  {q : Pragma} {base model : String} {t : Tree} {us : List Lexeme}

theorem prelude_lacks (h : (preludeCut bases context d ++ .one (.pragma q.template)).Of us) {s : Symbol} (hdot : s ≠ .dot)
    (hend : s ≠ .semicolon) : Lacks s us := by
  obtain ⟨_, _, rfl, hprelude, hmark⟩ := of_append h
  obtain ⟨m, rfl, hm⟩ := of_one hmark
  obtain ⟨k, _, rfl, hk, hprelude⟩ := of_word hprelude
  obtain ⟨ss, _, rfl, hspace, hprelude⟩ := of_append hprelude
  obtain ⟨e, us, rfl, he, hu⟩ := of_sym hprelude
  obtain ⟨space, hspace, -⟩ := isPath_of_pathCut hspace
  obtain ⟨usings, husings, -⟩ := isUsings_of_join hu
  refine lacks_append (lacks_cons (not_symbol_word hk) (lacks_append (lacks_path hspace hdot)
    (lacks_cons (not_symbol_other he hend) (lacks_usings husings hdot hend)))) (lacks_cons ?_ lacks_nil)
  exact fun hs => nomatch hm.symm.trans hs

/-- The header is read on its own line, behind tokens that hold only dots and semicolons besides names. -/
theorem lexed_behind_prelude {cs : List Char} {ls : List Lexeme}
    (hspaces : ∀ s ∈ usedNamespaces bases context d, Text.isDottedName s.toList = true) (hq : Readable q.template)
    (hcolumn : q.column ≤ Text.maxCount)
    (hsource : source.toList = Line.chars (preludeLines key bases context d ++ [.pragma q]) ++ cs)
    (hlength : source.length ≤ Text.maxCount) (hls : lexemes source.toList = .ok ls) :
    ∃ us vs, ls = us ++ vs ∧ (∀ s, s ≠ .dot → s ≠ .semicolon → Lacks s us) ∧
      Lexed true ⟨cs, SourcePos.start.after (Line.chars (preludeLines key bases context d ++ [.pragma q]))⟩ vs := by
  have hpragma : Line.chars (preludeLines key bases context d ++ [.pragma q]) =
      (Line.chars (preludeLines key bases context d) ++ q.text.toList) ++ ['\n'] := by
    rw [Line.chars_append, Line.chars_cons, Line.chars_nil, List.append_assoc]
    rfl
  have hlast : (Line.chars (preludeLines key bases context d) ++ q.text.toList).getLast? ≠ some '\\' := by
    have hne : q.text.toList ≠ [] := by
      rw [Pragma.toList_text]
      exact List.cons_ne_nil _ _
    rw [List.getLast?_append_of_ne_nil _ hne]
    exact q.getLast?_text
  have hlexed := lexed_of_lexemes hls
  rw [hsource, hpragma, List.append_assoc] at hlexed
  obtain ⟨us, vs, rfl, hvs⟩ := hlexed.line hlast
  -- The tokens of the prelude and of the pragma are known, so the others are those read behind them.
  have hcounted : Counted (preludeLines key bases context d ++ [.pragma q]) := by
    refine .inr (Nat.le_trans ?_ hlength)
    rw [← String.length_toList, hsource, List.length_append]
    exact Nat.le_add_right _ _
  have hcut := ((prelude_tells true key hspaces).append (tells_pragma hq hcolumn)) hcounted cs
  have hall := lexemes_eq_ok hls
  rw [hsource] at hall
  obtain ⟨ts, rs, hts, hrs, heq⟩ := Cut.append_eq_some.mp (hcut.symm.trans hall)
  obtain rfl := Option.some.inj (hvs.cut.symm.trans hrs)
  rw [List.map_append] at heq
  have hus : (preludeCut bases context d ++ .one (.pragma q.template)).Of us := by
    rw [Cut.Of, hts, List.append_cancel_right heq]
  rw [← hpragma] at hvs
  exact ⟨us, vs, rfl, fun s => prelude_lacks hus, hvs⟩

/-- The line after a pragma maps to the place of the pragma. -/
theorem map?_behind_pragma {lines : List Line} {cs rest : List Char} (hq : Readable q.template)
    (hcolumn : q.column ≤ Text.maxCount) (hsource : source.toList = Line.chars (lines ++ [.pragma q]) ++ (cs ++ rest))
    (hcs : '\n' ∉ cs) :
    (SourceMap.ofSource source).map? (SourcePos.start.after (Line.chars (lines ++ [.pragma q]) ++ cs)) =
      some ⟨q.template.line, q.template.column + (cs.length + 1 - q.column)⟩ := by
  obtain ⟨xs, hplace, hfields⟩ := Line.after_pragma lines q
  have hsplit := hfields (cs ++ rest)
  rw [← hsource] at hsplit
  rw [hplace cs hcs, SourceMap.map?_after_pragma hsplit (Pragma.ofLine?_text hq.line hq.column hcolumn)]

/-- The names in the header map to the place of its pragma, as far behind it as they are behind the pragma's column. -/
theorem map?_decl (hlines : headerLines context d = [.pragma q, .code 0 text])
    (htext : text.toList = headerStart context.className.text ++ (base.toList ++ '<' :: (model.toList ++ ['>'])))
    (hspaces : ∀ s ∈ usedNamespaces bases context d, Text.isDottedName s.toList = true)
    (hbase : Text.isDottedName base.toList = true) (hq : Readable q.template) (hcolumn : q.column ≤ text.length)
    (hsource : source.toList = Line.chars (unitLines key bases context d nodes)) (hlength : source.length ≤ Text.maxCount)
    (ht : Tree.ofSource source = .ok t) :
    (SourceMap.ofSource source).map? t.decl.base.pos = some ⟨q.template.line,
      q.template.column + ((headerStart context.className.text).length + 1 - q.column)⟩ ∧
    (Text.isDottedName model.toList = true → (SourceMap.ofSource source).map? t.decl.model.pos = some ⟨q.template.line,
      q.template.column + ((headerStart context.className.text).length + base.length + 2 - q.column)⟩) := by
  have hname := context.className.isName
  have hunit : source.toList = Line.chars (preludeLines key bases context d ++ [.pragma q]) ++
      (text.toList ++ '\n' :: Line.chars (bodyLines d nodes)) := by
    rw [hsource, unitLines_eq, hlines, Line.chars_append, Line.chars_append, Line.chars_append, Line.chars_cons,
      Line.chars_cons, Line.chars_cons, Line.chars_nil, Line.toList_code]
    simp [Line.indent]
  have hcolumn : q.column ≤ Text.maxCount := by
    have hle := congrArg List.length hunit
    rw [String.length_toList, List.length_append, List.length_append, String.length_toList] at hle
    omega
  have hchars : source.toList = Line.chars (preludeLines key bases context d ++ [.pragma q]) ++
      (headerStart context.className.text ++ (base.toList ++ '<' :: (model.toList ++ '>' :: '\n' ::
        Line.chars (bodyLines d nodes)))) := by
    rw [hunit, htext]
    simp only [List.append_assoc, List.cons_append, List.nil_append]
  obtain ⟨ls, hls, hread⟩ := Except.bind_eq_ok.mp ht
  obtain ⟨us, vs, rfl, hus, hvs⟩ := lexed_behind_prelude hspaces hq hcolumn hchars hlength hls
  obtain ⟨hbasepos, hmodelpos⟩ := decl_pos hname hbase hus hvs hread
  have hstart := newline_not_mem_headerStart hname
  constructor
  · rw [hbasepos, ← SourcePos.after_append, map?_behind_pragma hq hcolumn hchars hstart]
  · intro hdotted
    -- The model's name is on the line of the base type, behind its name and the bracket.
    have hline : '\n' ∉ headerStart context.className.text ++ (base.toList ++ ['<']) := by
      simp [hstart, newline_not_mem_dotted hbase]
    have hlen : (headerStart context.className.text ++ (base.toList ++ ['<'])).length + 1 =
        (headerStart context.className.text).length + base.length + 2 := by
      rw [List.length_append, List.length_append, String.length_toList]
      rfl
    have hmore : source.toList = Line.chars (preludeLines key bases context d ++ [.pragma q]) ++
        (headerStart context.className.text ++ (base.toList ++ ['<']) ++ (model.toList ++ '>' :: '\n' ::
          Line.chars (bodyLines d nodes))) := by
      rw [hchars]
      simp only [List.append_assoc, List.singleton_append]
    rw [hmodelpos hdotted, ← SourcePos.after_append, map?_behind_pragma hq hcolumn hmore hline, hlen]

end

/-! ### The pragma of the header -/

section
variable {d : Declared} {n : Merged} {p : SourcePos}

theorem toList_headerStart (name : String) : (s!"internal class {name} : ").toList = headerStart name := by
  rw [← List.append_nil (headerStart name), headerStart_append]
  simp [toString]

/-- A base type that the template gives itself has the pragma. -/
theorem headerLines_inherits (context : TypeContext) (hi : d.inherits = some n) (hp : n.pos = some p)
    (hn : Text.isDottedName n.value.toList = true) :
    ∃ text, headerLines context d = [.pragma ⟨p, (headerStart context.className.text).length + 1⟩, .code 0 text] ∧
      text.toList = headerStart context.className.text ++ (n.value.toList ++ '<' :: ((d.modelName context).toList ++ ['>'])) := by
  have hheader := toList_headerStart context.className.text
  refine ⟨s!"internal class {context.className.text} : " ++ Line.singleLine n.value ++ s!"<{d.modelName context}>", ?_, ?_⟩
  · rw [← hheader, String.length_toList, headerLines, hi]
    simp [hp, Line.mapped, Declared.modelName]
  · rw [String.toList_append, String.toList_append, hheader, toList_singleLine_path hn]
    simp [toString]

/-- A model type that the template gives itself has the pragma if the base type has none. -/
theorem headerLines_model (context : TypeContext) (hi : d.inherits.bind (·.pos) = none) (hm : d.model = some n)
    (hp : n.pos = some p) (hn : Text.isDottedName n.value.toList = true) :
    ∃ text, headerLines context d = [.pragma ⟨p, (headerStart context.className.text).length +
        (d.baseName context).length + 2⟩, .code 0 text] ∧
      text.toList = headerStart context.className.text ++ ((d.baseName context).toList ++ '<' :: (n.value.toList ++ ['>'])) := by
  have hheader := toList_headerStart context.className.text
  refine ⟨s!"internal class {context.className.text} : " ++ d.baseName context ++ "<" ++ Line.singleLine n.value ++ ">", ?_, ?_⟩
  · rw [← hheader, String.length_toList, headerLines, hi, hm]
    simp [hp, Line.mapped, Declared.baseName, toString]
    rfl
  · rw [String.toList_append, String.toList_append, toList_singleLine_path hn]
    simp [toString, headerStart_append]

end

/-- The place that the name of the model type maps to if the template gives it: the place of its own directive, but the
place one column behind the base type if the template gives that too. -/
def modelPlace (inherits : Option Directive) (model : Directive) : SourcePos :=
  match inherits with
  | none => model.pos
  | some i => ⟨i.pos.line, i.pos.column + i.value.length + 1⟩

section
variable {key source : String} {bases : List BaseType} {context : TypeContext} {imported : Imported} {d : Document} {t : Tree}
  {text : List Char}

theorem baseName_dotted (hc : Text.isDottedName context.baseType.name.toList = true) (hm : imported.Proper) (hd : d.From text) :
    Text.isDottedName ((Declared.merge imported d.directives).baseName context).toList = true := by
  have hinherits : ∀ n ∈ (Declared.merge imported d.directives).inherits, Text.isDottedName n.value.toList = true :=
    forall_or (forall_map hd.directives.inherits) fun n hn => (hm.inherits n hn).1
  rw [Declared.baseName]
  cases hi : (Declared.merge imported d.directives).inherits with
  | none => exact hc
  | some n => exact hinherits n hi

/-- The names that the template gives itself map to their places. -/
theorem map?_own (hc : Dotted bases { context with modelType := .dynamic }) (hm : imported.Proper) (hd : d.From text)
    (htext : text.length < Text.maxCount)
    (hsource : source.toList = Line.chars (unitLines key bases context (Declared.merge imported d.directives) d.nodes))
    (hlength : source.length ≤ Text.maxCount) (ht : Tree.ofSource source = .ok t) :
    (∀ i ∈ d.directives.inherits, (SourceMap.ofSource source).map? t.decl.base.pos = some i.pos) ∧
    ∀ m ∈ d.directives.model, (SourceMap.ofSource source).map? t.decl.model.pos =
      some (modelPlace d.directives.inherits m) := by
  have hspaces : ∀ s ∈ usedNamespaces bases context (Declared.merge imported d.directives), Text.isDottedName s.toList = true :=
    fun s hs => namespaces_dotted hc (forall_usings hm.usings hd.directives.usings) hs
  have hreadable : ∀ e, e ∈ d.directives.model ∨ e ∈ d.directives.inherits → Readable e.pos := fun e he =>
    readable_of_placeIn (hd.directives.places e (.inr he)) htext
  cases hi : d.directives.inherits with
  | some i =>
    -- The header is mapped to the base type, and the model's place is counted from there.
    have hdotted := hd.directives.inherits i hi
    obtain ⟨line, hlines, hline⟩ := headerLines_inherits context (d := Declared.merge imported d.directives) (n := .own i)
      (by rw [Declared.merge, hi]; rfl) rfl hdotted
    have hcolumn : (headerStart context.className.text).length + 1 ≤ line.length := by
      have hlen := congrArg List.length hline
      simp only [List.length_append, List.length_cons, String.length_toList] at hlen
      omega
    obtain ⟨hbase, hmodel⟩ := map?_decl hlines hline hspaces hdotted (hreadable i (.inr hi)) hcolumn hsource hlength ht
    refine ⟨?_, fun m hmem => ?_⟩
    · rintro _ ⟨⟩
      rw [hbase, Nat.sub_self]
      rfl
    · have hname : (Declared.merge imported d.directives).modelName context = m.value := by
        rw [Declared.modelName, Declared.merge, hmem]
        rfl
      rw [hmodel (hname ▸ hd.directives.model m hmem), modelPlace]
      dsimp only [Merged.own]
      congr 2
      omega
  | none =>
    refine ⟨fun _ h => absurd h (Option.not_mem_none _), fun m hmem => ?_⟩
    -- An imported base type has no place in the template, so the header is mapped to the model.
    have hnone : (Declared.merge imported d.directives).inherits.bind (·.pos) = none := by
      rw [Declared.merge, hi]
      cases himported : imported.inherits with
      | none => rfl
      | some n => exact (hm.inherits n himported).2
    have hdotted := hd.directives.model m hmem
    obtain ⟨line, hlines, hline⟩ := headerLines_model context (n := .own m) hnone (by rw [Declared.merge, hmem]; rfl) rfl
      hdotted
    have hcolumn : (headerStart context.className.text).length +
        ((Declared.merge imported d.directives).baseName context).length + 2 ≤ line.length := by
      have hlen := congrArg List.length hline
      simp only [List.length_append, List.length_cons, String.length_toList] at hlen
      omega
    obtain ⟨-, hmodel⟩ := map?_decl hlines hline hspaces (baseName_dotted hc.base hm hd) (hreadable m (.inl hmem)) hcolumn
      hsource hlength ht
    rw [hmodel hdotted, Nat.sub_self]
    rfl

end

/-! ### Problems with the header -/

section
variable {options : LoweringOptions} {references : List Reference} {t : Tree} {pos q : SourcePos} {p : Problem} {u : Generated}

/-- What is found in the header is reported at the name that it is about. -/
theorem mem_headerProblems (h : (pos, p) ∈ headerProblems options references t) :
    (pos, p) = (t.decl.base.pos, .unknownBaseType t.decl.base.name) ∨
      (pos, p) = (t.decl.model.pos, .modelMismatch t.decl.model.name options.modelType.name) ∨
      ∃ n ∈ t.usings, (pos, p) = (n.pos, .unknownNamespace n.name) := by
  unfold headerProblems at h
  rcases List.mem_append.mp h with h | h
  · rcases List.mem_append.mp h with h | h
    · exact .inl (List.mem_singleton.mp (List.mem_ite_nil_right.mp h).2)
    · exact .inr (.inl (List.mem_singleton.mp (List.mem_ite_nil_right.mp h).2))
  · obtain ⟨n, hn, h⟩ := List.mem_map.mp h
    exact .inr (.inr ⟨n, (List.mem_filter.mp hn).1, h.symm⟩)

theorem modelMismatch_mem (hdynamic : options.modelType.isDynamic = false) (hname : options.modelType.name ≠ t.decl.model.name) :
    (t.decl.model.pos, .modelMismatch t.decl.model.name options.modelType.name) ∈ headerProblems options references t := by
  unfold headerProblems
  exact List.mem_append_left _ (List.mem_append_right _ (by simp [hdynamic, hname]))

/-- A place that the pragmas map is reported as one in the template. -/
theorem locate_of_map? (h : (SourceMap.ofSource u.source).map? pos = some q) :
    SourceMap.locate (Compiler.sourceMap? u) u.template (some pos) = .template u.template q := by
  have hentries : (SourceMap.ofSource u.source).entries ≠ [] := by
    intro hnone
    rw [SourceMap.map?, hnone] at h
    cases h
  have hmap : Compiler.sourceMap? u = some (SourceMap.ofSource u.source) := by
    rw [Compiler.sourceMap?, if_neg (by simpa using hentries)]
  rw [hmap, SourceMap.locate, Option.bind_some, h]

/-- What is found in the header is among the problems of the unit. -/
theorem mem_problems_of_header {lowered : Lowered} (hl : t.lower? options references = some lowered)
    (h : (pos, p) ∈ headerProblems options references t) : (pos, p) ∈ lowered.problems := by
  rw [Tree.lower?_eq, Option.bind_eq_some_iff] at hl
  obtain ⟨⟨⟨functions, body⟩, s⟩, hrun, hl⟩ := hl
  have hmem : (pos, p) ∈ s.problems :=
    (grows_lowerOutline _ _ _ _ _ hrun).problems.subset (List.mem_append_left _ h)
  dsimp only at hl
  split at hl <;> cases hl <;> exact List.mem_append_left _ hmem

end

/-- With pragmas on, a base type that is not found is reported at the value of the template's own `@inherits`. A model type
other than the one asked for is reported at the value of the template's own `@model` only if the template has no `@inherits`
of its own: the line has one pragma, so that else it is reported one column behind the value of `@inherits`. -/
theorem header_problems_located {g : Generator} {source : TemplateSource} {imports : List TemplateSource}
    {context : TypeContext} {u : Generated} {d : Document} {t : Tree} (hpragmas : g.pragmas = true)
    (hgen : g.generate source imports context = .ok u) (hd : Markup.parse source.key source.content = .ok d)
    (hcontext : Dotted g.baseTypes { context with modelType := .dynamic })
    (hcontent : source.content.length < Text.maxCount) (hunit : u.source.length ≤ Text.maxCount)
    (ht : Tree.ofSource u.source = .ok t) (options : BuildOptions) (references : List Reference) :
    ∀ pos p, (pos, p) ∈ headerProblems options.toLoweringOptions references t →
      ((t.lower? options.toLoweringOptions references).isSome = true →
        p.diagnostic pos ∈ (build u.source options references).diagnostics) ∧
      (∀ name, p = .unknownBaseType name → ∀ i ∈ d.directives.inherits, i.Stands source.content.toList ∧
        SourceMap.locate (Compiler.sourceMap? u) u.template (p.diagnostic pos).pos = .template u.template i.pos) ∧
      ∀ name requested, p = .modelMismatch name requested → ∀ m ∈ d.directives.model, m.Stands source.content.toList ∧
        SourceMap.locate (Compiler.sourceMap? u) u.template (p.diagnostic pos).pos =
          .template u.template (modelPlace d.directives.inherits m) := by
  obtain ⟨imported, d', himported, hd', hsource⟩ := generate_eq_ok hgen
  cases hd.symm.trans hd'
  have hfrom := Markup.parse_from hd
  have hchars : u.source.toList = Line.chars (unitLines source.key g.baseTypes context
      (Declared.merge imported d.directives) d.nodes) := by
    rw [hsource, hpragmas, Line.toList_render]
    rfl
  obtain ⟨hbase, hmodel⟩ := map?_own hcontext (Imported.proper_ofFiles himported) hfrom (by rwa [String.length_toList]) hchars
    hunit ht
  intro pos p hp
  refine ⟨fun hlowered => ?_, ?_, ?_⟩
  · obtain ⟨lowered, hlowered⟩ := Option.isSome_iff_exists.mp hlowered
    simp only [build, ht, hlowered]
    exact List.mem_map.mpr ⟨(pos, p), mem_problems_of_header hlowered hp, rfl⟩
  · -- Each problem has the place of the name that it is about.
    rintro name rfl i hi
    obtain h | h | ⟨n, -, h⟩ := mem_headerProblems hp <;> cases h
    exact ⟨hfrom.directives.stands i (.inr hi), locate_of_map? (hbase i hi)⟩
  · rintro name requested rfl m hm
    obtain h | h | ⟨n, -, h⟩ := mem_headerProblems hp <;> cases h
    exact ⟨hfrom.directives.stands m (.inl hm), locate_of_map? (hmodel m hm)⟩

/-- A page that gives both its base type and its model type. -/
def headedPage : TemplateSource := ⟨"page", "@inherits TemplateBase\n@model Foo\nhi", none⟩

/-- The class that the page becomes, compiled for another model type. -/
def headedPageContext : TypeContext := { memberPageContext with modelType := .ofName "Bar" }

theorem headedPage_generates :
    ((({} : Generator).generate headedPage [] headedPageContext).toOption.any fun u =>
      decide (u.template = "page" ∧ u.source.utf8ByteSize ≤ Text.maxCount) && (Tree.ofSource u.source).toOption.any fun t =>
        (t.lower? { modelType := .ofName "Bar" } []).isSome && t.decl.model.name == "Foo") = true ∧
    ((Markup.parse headedPage.key headedPage.content).toOption.any fun d =>
      decide (d.directives.inherits = some ⟨"TemplateBase", ⟨1, 11⟩⟩ ∧ d.directives.model = some ⟨"Foo", ⟨2, 8⟩⟩)) = true := by
  decide +kernel

/-- The page gives its model type on its second line, but the problem with it is reported on the first. -/
theorem header_problems_located_both : ∃ (u : Generated) (d : Document) (t : Tree) (pos : SourcePos),
    ({} : Generator).generate headedPage [] headedPageContext = .ok u ∧
      Markup.parse headedPage.key headedPage.content = .ok d ∧ Tree.ofSource u.source = .ok t ∧
      d.directives.model = some ⟨"Foo", ⟨2, 8⟩⟩ ∧
      (Problem.modelMismatch "Foo" "Bar").diagnostic pos ∈
        (build u.source { modelType := .ofName "Bar" } []).diagnostics ∧
      SourceMap.locate (Compiler.sourceMap? u) u.template (some pos) = .template "page" ⟨1, 24⟩ := by
  obtain ⟨hgen, hparse⟩ := headedPage_generates
  obtain ⟨u, hu, hread⟩ := exists_of_toOption_any hgen
  obtain ⟨d, hd, hdirectives⟩ := exists_of_toOption_any hparse
  obtain ⟨hinherits, hmodel⟩ := of_decide_eq_true hdirectives
  obtain ⟨hunit, hread⟩ := Bool.and_eq_true_iff.mp hread
  obtain ⟨htemplate, hlength⟩ := of_decide_eq_true hunit
  obtain ⟨t, ht, hread⟩ := exists_of_toOption_any hread
  obtain ⟨hlowered, hname⟩ := Bool.and_eq_true_iff.mp hread
  have hp : (t.decl.model.pos, .modelMismatch "Foo" "Bar") ∈ headerProblems { modelType := .ofName "Bar" } [] t := by
    rw [← beq_iff_eq.mp hname]
    exact modelMismatch_mem rfl (by rw [beq_iff_eq.mp hname]; decide)
  obtain ⟨hreported, -, hplace⟩ := header_problems_located rfl hu hd ⟨by decide, by decide, by decide, by decide⟩
    (by decide +kernel) (Nat.le_trans (length_le_utf8ByteSize _) hlength) ht { modelType := .ofName "Bar" } [] _ _ hp
  obtain ⟨-, hlocated⟩ := hplace _ _ rfl _ hmodel
  rw [hinherits, htemplate] at hlocated
  refine ⟨u, d, t, t.decl.model.pos, hu, hd, ht, hmodel, hreported hlowered, ?_⟩
  rw [htemplate]
  exact hlocated

end Unit

end Stencil
