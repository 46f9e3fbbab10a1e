import Stencil.Proofs.Lookup
import Stencil.Proofs.Markup.Delimiting
import Stencil.Proofs.Markup.Documents
import Stencil.Proofs.Markup.SectionNames

/-! What every document that is read is like.

Names are names and different where they have to be, sections stand at the top level, and the embedded code is the text
at its place, trimmed, not blank and well nested. So a bracket around a piece of code is closed behind it and nowhere
else, and code that a semicolon ends has none before that outside brackets and literals. -/

namespace Stencil

/-! ### Places tell prefixes apart -/

namespace SourcePos

/-- Reading on never leads to an earlier line, and on the same line it moves the column by what was read. -/
theorem after_advances (p : SourcePos) (cs : List Char) :
    p.line ≤ (p.after cs).line ∧ ((p.after cs).line = p.line → (p.after cs).column = p.column + cs.length) := by
  induction cs generalizing p with
  | nil => exact ⟨Nat.le_refl _, fun _ => rfl⟩
  | cons c cs ih =>
    obtain ⟨hline, hcolumn⟩ := ih (p.next c)
    rw [after_cons, List.length_cons]
    by_cases hc : c = '\n'
    · have hnext : (p.next c).line = p.line + 1 := by rw [hc, next_newline]
      exact ⟨by omega, fun h => by omega⟩
    · have hnext : (p.next c).line = p.line := by rw [next_of_ne p hc]
      have hright : (p.next c).column = p.column + 1 := by rw [next_of_ne p hc]
      exact ⟨by omega, fun h => by rw [hcolumn (h.trans hnext.symm), hright]; omega⟩

theorem eq_nil_of_after_eq {p : SourcePos} {cs : List Char} (h : p.after cs = p) : cs = [] := by
  have hcolumn := (after_advances p cs).2 (congrArg line h)
  rw [h] at hcolumn
  exact List.length_eq_zero_iff.mp (by omega)

/-- Two prefixes of a text that lead to the same place are the same. -/
theorem prefix_eq_of_after_eq {p : SourcePos} {text cs ds : List Char} (hc : cs <+: text) (hd : ds <+: text)
    (h : p.after cs = p.after ds) : cs = ds := by
  rcases List.prefix_or_prefix_of_prefix hc hd with ⟨rest, rfl⟩ | ⟨rest, rfl⟩
  · rw [after_append] at h
    rw [eq_nil_of_after_eq h.symm, List.append_nil]
  · rw [after_append] at h
    rw [eq_nil_of_after_eq h, List.append_nil]

end SourcePos

namespace Markup

section
variable {text : List Char} {f : Fragment}

/-- Code in parentheses does not stand right behind an at sign. -/
theorem Fragment.InParens.not_behindAt (h : f.InParens text) : ¬f.BehindAt text := by
  rintro ⟨before', after', htext', hstart'⟩
  obtain ⟨before, gap, gap', after, htext, hgap, -, hstart⟩ := h
  -- What stands before the code would end with an at sign, but it ends with the parenthesis or with a blank.
  have hprefix : before ++ '@' :: '(' :: gap <+: text := ⟨f.text ++ gap' ++ ')' :: after, by rw [htext]; simp⟩
  have hprefix' : before' ++ ['@'] <+: text := ⟨f.text ++ after', by rw [htext']; simp⟩
  have hsame := SourcePos.prefix_eq_of_after_eq hprefix hprefix' (hstart.symm.trans hstart')
  have hlast : ('(' :: gap).getLast? = some '@' := by
    have hends := congrArg List.getLast? hsame
    rw [List.getLast?_concat, ← List.singleton_append, ← List.append_assoc, List.getLast?_append_cons] at hends
    exact hends
  rcases List.mem_cons.mp (List.mem_of_getLast? hlast) with hparen | hblank
  · cases hparen
  · exact absurd (List.all_eq_true.mp hgap _ hblank) (by decide)

/-- A piece of embedded code as a document holds it: a stretch of the text at its place that is not blank, neither
starts nor ends with a blank, and is well nested, so that any bracket in front of it is closed right behind it. -/
structure Fragment.Embedded (text : List Char) (f : Fragment) : Prop where
  stands : f.At text
  notBlank : Text.allBlank f.text = false
  first : ∀ x ∈ f.text.head?, Text.isBlank x = false
  last : ∀ x ∈ f.text.getLast?, Text.isBlank x = false
  nested : WellNested f.text
  delimited : ∀ {o e : Char} (rest : List Char) (pos : SourcePos), closerOf? o = some e →
    balanced ⟨o :: (f.text ++ e :: rest), pos⟩ =
      .ok (⟨f.text, pos.next o⟩, ⟨rest, ((pos.next o).after f.text).next e⟩)

theorem Fragment.CodeIn.embedded (h : f.CodeIn text) : f.Embedded text where
  stands := h.stands
  notBlank := h.notBlank
  first _ hx := Text.isBlank_of_head?_trim (h.trimmed.symm ▸ hx)
  last _ hx := Text.isBlank_of_getLast?_trim (h.trimmed.symm ▸ hx)
  nested := h.closed.wellNested
  delimited rest pos ho := balanced_wellNested ho h.closed.wellNested rest pos

end

/-- A document that a text is read as. -/
structure Document.WellFormed (text : List Char) (d : Document) : Prop where
  /-- Sections stand at the top level and nowhere else, names are names, and initialisers have no semicolon outside
  brackets and literals. -/
  nodes : Node.ProperAll true d.nodes
  sections : (sectionNames d.nodes).Nodup
  /-- Functions and their parameters have names, no two parameters the same one, and the code of a function has no
  semicolon outside brackets and literals. -/
  functions : ∀ f ∈ d.directives.functions, f.Proper
  functionNames : (d.directives.functions.map (·.name)).Nodup
  layout : ∀ l ∈ d.directives.layout, l.value ≠ ""
  code : ∀ f ∈ d.fragments, f.Embedded text
  /-- Expressions stand right behind an at sign or in parentheses behind it. -/
  expressions : ∀ f ∈ Node.expressionsAll d.nodes, f.BehindAt text ∨ f.InParens text
  /-- An expression without parentheses around it has no semicolon outside brackets and literals. -/
  bare : ∀ f ∈ Node.expressionsAll d.nodes, f.BehindAt text → Sealed f.text

/-- Every text that is read is read as a well-formed document. -/
theorem wellFormed_of_parse {template text : String} {d : Document} (h : parse template text = .ok d) :
    d.WellFormed text.toList where
  nodes := (parse_from h).nodes.proper
  sections := sectionNames_nodup_of_parse h
  functions f hf := ((parse_from h).directives.functions f hf).1
  functionNames := (parse_from h).directives.names
  layout := (parse_from h).directives.layout
  code _ hf := ((parse_from h).fragment hf).embedded
  expressions f hf := by
    rcases (parse_from h).nodes.expressions f hf with ⟨hat, -⟩ | hparens
    · exact .inl hat
    · exact .inr hparens
  bare f hf hat := by
    rcases (parse_from h).nodes.expressions f hf with ⟨-, hsealed⟩ | hparens
    · exact hsealed
    · exact absurd hat hparens.not_behindAt

/-- A page with code in each of the places that hold some: a function, a variable with a semicolon in a literal, the
condition of an alternative, the source of a loop, expressions with and without parentheses, and a section. -/
def codePage : String :=
  "@layout \"main\"\n@functions \x7b Pair(a, b) => Join(a, \";\", b); \x7d\n@\x7b var x = Pair(1, \";\"); \x7d\n" ++
    "@if ( x ) \x7b @foreach (var y in x) \x7b @y.Name(1) @( y ) \x7d \x7d\n@section Side \x7b hi \x7d\n"

/-- The page is read as a well-formed document with six pieces of code, two of them expressions. -/
theorem wellFormed_of_parse_codePage : ∃ d, parse "page" codePage = .ok d ∧
    d.fragments.map (String.ofList ·.text) =
      ["Join(a, \";\", b)", "Pair(1, \";\")", "x", "x", "y.Name(1)", "y"] ∧
    (Node.expressionsAll d.nodes).length = 2 ∧ sectionNames d.nodes = ["Side"] ∧ d.WellFormed codePage.toList := by
  have hread : ((parse "page" codePage).toOption.any fun d =>
      decide (d.fragments.map (String.ofList ·.text) =
        ["Join(a, \";\", b)", "Pair(1, \";\")", "x", "x", "y.Name(1)", "y"] ∧
      (Node.expressionsAll d.nodes).length = 2 ∧ sectionNames d.nodes = ["Side"])) = true := by
    decide +kernel
  obtain ⟨d, hd, hparts⟩ := exists_of_toOption_any hread
  obtain ⟨hcode, hexpressions, hsections⟩ := of_decide_eq_true hparts
  exact ⟨d, hd, hcode, hexpressions, hsections, wellFormed_of_parse hd⟩

end Markup

end Stencil
