import Stencil.Proofs.Unit.Mapping
import Stencil.Proofs.Unit.Spelling

/-! The tokens of a whole unit.

The header of the class, its layout, functions and sections, and its body come one after another, each with the
tokens that its names, literals and code give. -/

namespace Stencil.Unit

open Markup (Node Fragment)

/-! ### Names joined by dots and by commas -/

section
variable {cs : List Char} {c : Cut}

/-- Names with dots between them. -/
def dottedCut : List (List Char) → Cut
  | [] => .nil
  | [n] => .one (.name (String.ofList n))
  | n :: m :: ns => .one (.name (String.ofList n)) ++ (sym .dot ++ dottedCut (m :: ns))

/-- The tokens of a dotted name. -/
def pathCut (name : String) : Cut := dottedCut (Text.fields '.' name.toList)

theorem tokens?_dotted {ns : List (List Char)} (hns : ns ≠ []) (hall : ∀ n ∈ ns, Text.isName n = true)
    (hcs : ∀ d ∈ cs.head?, Text.isNameChar d = false) (b : Bool) :
    tokens? b (['.'].intercalate ns ++ cs) = dottedCut ns ++ tokens? false cs := by
  induction ns using dottedCut.induct generalizing b with
  | case1 => exact absurd rfl hns
  | case2 n =>
    rw [List.intercalate_singleton]
    exact tokens?_name (hall n List.mem_cons_self) hcs b
  | case3 n m ns ih =>
    have hrest := ih (List.cons_ne_nil _ _) (fun x hx => hall x (List.mem_cons_of_mem _ hx)) false
    have hdot : ∀ d ∈ ('.' :: (['.'].intercalate (m :: ns) ++ cs)).head?, Text.isNameChar d = false := by
      rintro _ ⟨⟩
      decide
    rw [List.intercalate_cons_cons, dottedCut, Cut.append_assoc, Cut.append_assoc, List.append_assoc, List.append_assoc,
      List.singleton_append, tokens?_name (hall n List.mem_cons_self) hdot,
      tokens?_symbol (s := .dot) (by decide) rfl]
    exact congrArg (fun c => Cut.one (.name (String.ofList n)) ++ (sym .dot ++ c)) hrest

/-- A dotted name is read before anything that does not go on with it. -/
theorem tokens?_path {name : String} (hn : Text.isDottedName name.toList = true)
    (hcs : ∀ d ∈ cs.head?, Text.isNameChar d = false) (b : Bool) :
    tokens? b (name.toList ++ cs) = pathCut name ++ tokens? false cs := by
  have := tokens?_dotted (Text.fields_ne_nil '.' name.toList) (List.all_eq_true.mp hn) hcs b
  rwa [Text.intercalate_fields] at this

theorem begins_path {name : String} (hn : Text.isDottedName name.toList = true)
    (hcs : ∀ d ∈ cs.head?, Text.isNameChar d = false) (h : Begins cs c) : Begins (name.toList ++ cs) (pathCut name ++ c) := by
  intro ds hds
  have hhead : ∀ d ∈ (cs ++ ds).head?, Text.isNameChar d = false := by
    cases cs with
    | nil => exact hds.head_not_name
    | cons d cs => exact hcs
  rw [List.append_assoc, tokens?_path hn hhead, h ds hds, Cut.append_assoc]

/-- Names with commas between them. -/
def namesCut : List String → Cut
  | [] => .nil
  | [n] => word n
  | n :: m :: ns => word n ++ (sym .comma ++ namesCut (m :: ns))

theorem begins_names {ns : List String} (hall : ∀ n ∈ ns, Text.isName n.toList = true)
    (hcs : ∀ d ∈ cs.head?, Text.isNameChar d = false) (h : Begins cs c) :
    Begins ((", ".intercalate ns).toList ++ cs) (namesCut ns ++ c) := by
  rw [String.toList_intercalate]
  induction ns using namesCut.induct with
  | case1 =>
    rw [namesCut, Cut.nil_append]
    exact h
  | case2 n =>
    rw [List.map_singleton, List.intercalate_singleton]
    exact begins_word (hall n List.mem_cons_self) hcs h
  | case3 n m ns ih =>
    have hrest := ih fun x hx => hall x (List.mem_cons_of_mem _ hx)
    have hcomma : ∀ ds : List Char, ∀ d ∈ (',' :: ds).head?, Text.isNameChar d = false := by
      rintro ds _ ⟨⟩
      decide
    have := begins_word (hall n List.mem_cons_self) (hcomma _) hrest.space.comma
    rw [List.map_cons, List.map_cons, List.intercalate_cons_cons, namesCut, Cut.append_assoc, Cut.append_assoc,
      List.append_assoc, List.append_assoc]
    exact this

end

/-! ### Code that is on one line already -/

theorem toList_singleLine_of {s : String} (h : ∀ c ∈ s.toList, NoBreak c) : (Line.singleLine s).toList = s.toList := by
  rw [Line.toList_singleLine, map_oneLine_of_noBreak h]

theorem noBreak_of_isNameChar {c : Char} (h : Text.isNameChar c = true) : NoBreak c := by
  constructor <;> rintro rfl <;> exact absurd h (by decide)

theorem mem_intercalate {sep c : Char} {ns : List (List Char)} (h : c ∈ [sep].intercalate ns) :
    c = sep ∨ ∃ n ∈ ns, c ∈ n := by
  induction ns with
  | nil => cases h
  | cons n ns ih =>
    cases ns with
    | nil =>
      rw [List.intercalate_singleton] at h
      exact .inr ⟨n, List.mem_cons_self, h⟩
    | cons m ns =>
      rw [List.intercalate_cons_cons, List.mem_append, List.mem_append] at h
      rcases h with (h | h) | h
      · exact .inr ⟨n, List.mem_cons_self, h⟩
      · exact .inl (List.mem_singleton.mp h)
      · exact (ih h).imp_right fun ⟨n, hn, hc⟩ => ⟨n, List.mem_cons_of_mem _ hn, hc⟩

theorem toList_singleLine_path {name : String} (hn : Text.isDottedName name.toList = true) :
    (Line.singleLine name).toList = name.toList := by
  refine toList_singleLine_of fun c hc => ?_
  rw [← Text.intercalate_fields '.' name.toList] at hc
  rcases mem_intercalate hc with rfl | ⟨n, hmem, hc⟩
  · exact ⟨by decide, by decide⟩
  · exact noBreak_of_isNameChar (Text.isNameChar_of_isName (List.all_eq_true.mp hn n hmem) hc)

theorem noBreak_of_mem_escapeChar {x c : Char} (h : c ∈ Json.escapeChar x) : NoBreak c := by
  have hhex : ∀ n < 16, Text.hexDigit n ≠ '\r' ∧ Text.hexDigit n ≠ '\n' := by decide
  unfold NoBreak
  unfold Json.escapeChar at h
  iterate 7
    split at h
    · refine (List.all_iff_forall_prop (p := fun c => c ≠ '\r' ∧ c ≠ '\n')).mp ?_ c h
      decide
  split at h
  · rename_i hlow
    simp only [List.mem_cons, List.not_mem_nil, or_false] at h
    rcases h with rfl | rfl | rfl | rfl | rfl | rfl
    iterate 4 decide
    · exact hhex _ (by omega)
    · exact hhex _ (by omega)
  · rename_i hn hr _ _
    cases List.mem_singleton.mp h
    exact ⟨hr, hn⟩

theorem toList_singleLine_quote (s : String) : (Line.singleLine (Json.quote s)).toList = (Json.quote s).toList := by
  refine toList_singleLine_of fun c hc => ?_
  rw [Json.quote, String.toList_ofList, Json.quoteChars] at hc
  rcases List.mem_cons.mp hc with rfl | hc
  · exact ⟨by decide, by decide⟩
  · rcases List.mem_append.mp hc with hc | hc
    · obtain ⟨x, -, hc⟩ := List.mem_flatMap.mp hc
      exact noBreak_of_mem_escapeChar hc
    · cases List.mem_singleton.mp hc
      exact ⟨by decide, by decide⟩

/-! ### The parts of a class -/

/-- The tokens of texts, one after another. -/
def Cut.join : List Cut → Cut
  | [] => .nil
  | c :: cs => c ++ join cs

/-- The tokens of a namespace that a unit uses. -/
def usingCut (space : String) : Cut := word "using" ++ (pathCut space ++ sym .semicolon)

/-- The names of the base type and of the model type in the header. -/
def Declared.baseName (d : Declared) (context : TypeContext) : String :=
  (d.inherits.map (·.value)).getD context.baseType.name

def Declared.modelName (d : Declared) (context : TypeContext) : String :=
  (d.model.map (·.value)).getD context.modelType.name

/-- The place that the header has a pragma for. -/
def Declared.headerPos (d : Declared) : Option SourcePos := (d.inherits.bind (·.pos)).or (d.model.bind (·.pos))

/-- The tokens of the header. -/
def headerCut (context : TypeContext) (d : Declared) : Cut :=
  word "internal" ++ (word "class" ++ (word context.className.text ++ (sym .colon ++ (pathCut (d.baseName context) ++
    (sym .less ++ (pathCut (d.modelName context) ++ sym .greater))))))

/-- The tokens of the header before the name of the model type. -/
def openingCut (context : TypeContext) (d : Declared) : Cut :=
  word "internal" ++ (word "class" ++ (word context.className.text ++ (sym .colon ++ (pathCut (d.baseName context) ++
    sym .less))))

/-- The tokens of a text that stands for the name of the model type, with the bracket behind it. -/
def writtenCut (name : String) : Cut := tokens? false (name.toList ++ ['>'])

/-- A member that a document declares. -/
inductive Part
  | layout (pos : Option SourcePos) (inherited : Bool) (key : String)
  | function (own : Bool) (f : Markup.FunctionDecl)
  | sectionDef (name : String) (body : List Node)
  | execute (body : List Node)

/-- The section that a node declares. -/
def sectionPart? : Node → Option Part
  | .sectionDef name _ body => some (.sectionDef name body)
  | _ => none

/-- The members that a document declares, in their order. -/
def parts (d : Declared) (nodes : List Node) : List Part :=
  (d.layout.map fun l => .layout l.pos d.layoutInherited l.value).toList ++
    (d.importedFunctions.map (.function false) ++ (d.ownFunctions.map (.function true) ++
      (nodes.filterMap sectionPart? ++ [.execute nodes])))

/-- The tokens of a member. -/
def Part.cut (pragmas : Bool) : Part → Cut
  | layout pos inherited key =>
    markOf pragmas pos ++ ((if inherited then word "default" else .nil) ++
      (word "layout" ++ (.one (.string key) ++ sym .semicolon)))
  | function own f =>
    markOf pragmas (if own then some f.pos else none) ++ (word "function" ++ (word f.name ++ (sym .openParen ++
      (namesCut f.params ++ (sym .closeParen ++ (sym .arrow ++ (codeCut f.code ++ sym .semicolon)))))))
  | sectionDef name body => word "section" ++ (.one (.string name) ++ bracesCut (nodesCut pragmas body))
  | execute body => word "execute" ++ bracesCut (nodesCut pragmas body)

/-- The tokens of members. -/
def partsCut (pragmas : Bool) (ps : List Part) : Cut := Cut.join (ps.map (Part.cut pragmas))

theorem partsCut_append (pragmas : Bool) (ps qs : List Part) :
    partsCut pragmas (ps ++ qs) = partsCut pragmas ps ++ partsCut pragmas qs := by
  induction ps with
  | nil => exact (Cut.nil_append _).symm
  | cons p ps ih =>
    show p.cut pragmas ++ partsCut pragmas (ps ++ qs) = p.cut pragmas ++ partsCut pragmas ps ++ partsCut pragmas qs
    rw [ih, Cut.append_assoc]

/-- The tokens of a unit. -/
def unitCut (pragmas : Bool) (bases : List BaseType) (context : TypeContext) (d : Declared) (nodes : List Node) : Cut :=
  word "namespace" ++ (pathCut unitNamespace ++ (sym .semicolon ++
    (Cut.join ((usedNamespaces bases context d).map usingCut) ++ (markOf pragmas d.headerPos ++ (headerCut context d ++
      (sym .openBrace ++ (partsCut pragmas (parts d nodes) ++ sym .closeBrace)))))))

/-! ### The lines of a class -/

section
variable {depth : Nat} {pragmas : Bool} {lines : List Line} {c : Cut}

theorem tells_select_code (pragmas : Bool) {text : String} (h : Tells [.code depth text] c) :
    Tells (Line.select pragmas [.code depth text]) c := by
  cases pragmas <;> exact h

theorem tells_select_blank (pragmas : Bool) : Tells (Line.select pragmas [.blank]) .nil := by
  cases pragmas <;> exact tells_blank

/-- A line that is a comment. -/
theorem tells_comment {text : String} {cs : List Char} (ht : text.toList = '/' :: '/' :: cs) (hcs : '\n' ∉ cs) :
    Tells [.code depth text] .nil := by
  intro _ rest
  have hall : ∀ c ∈ cs, (c != '\n') = true := fun c hc => bne_iff_ne.mpr fun h => hcs (h ▸ hc)
  rw [Line.chars_cons, Line.toList_code, Line.chars_nil, List.append_assoc, List.append_assoc, tokens?_indent, ht]
  show tokens? true ('/' :: '/' :: (cs ++ '\n' :: rest)) = _
  rw [tokens?_comment, List.dropWhile_append_of_pos hall, List.dropWhile_cons_of_neg (by decide), tokens?_newline,
    Cut.nil_append]

theorem tells_flatMap {α : Type} {f : α → List Line} {g : α → Cut} {xs : List α}
    (h : ∀ x ∈ xs, Tells (Line.select pragmas (f x)) (g x)) :
    Tells (Line.select pragmas (xs.flatMap f)) (Cut.join (xs.map g)) := by
  induction xs with
  | nil => cases pragmas <;> exact tells_nil
  | cons x xs ih =>
    rw [List.flatMap_cons, select_append]
    exact (h x List.mem_cons_self).append (ih fun y hy => h y (List.mem_cons_of_mem _ hy))

theorem using_tells {space : String} (hs : Text.isDottedName space.toList = true) :
    Tells [.code 0 s!"using {space};"] (usingCut space) := by
  have hpath := begins_path hs (ends_semicolon []).head_not_name begins_semicolon
  refine tells_word (by decide) ?_ head?_blank hpath.space
  simp [toString]

/-- The line of a header has the tokens of its opening and what the name of the model type is read as. -/
theorem headerLine_tells {context : TypeContext} {d : Declared} (hb : Text.isDottedName (d.baseName context).toList = true)
    {text : String} (ht : text.toList = "internal".toList ++ ' ' :: ("class".toList ++ ' ' ::
      (context.className.text.toList ++ ' ' :: ':' :: ' ' :: ((d.baseName context).toList ++ '<' ::
        ((d.modelName context).toList ++ ['>']))))) :
    Tells [.code 0 text] (openingCut context d ++ writtenCut (d.modelName context)) := by
  intro _ rest
  have hlast : text.toList.getLast? ≠ some '\\' := by
    rw [ht]
    simp [List.getLast?_append, List.getLast?_cons]
  have hless : ∀ cs : List Char, ∀ d ∈ ('<' :: cs).head?, Text.isNameChar d = false := by
    rintro cs _ ⟨⟩
    decide
  have hbase : tokens? false (' ' :: ((d.baseName context).toList ++ '<' :: ((d.modelName context).toList ++ ['>']))) =
      pathCut (d.baseName context) ++ (sym .less ++ writtenCut (d.modelName context)) := by
    rw [tokens?_blank (by decide) (by decide), tokens?_path hb (hless _), tokens?_symbol (s := .less) (by decide) rfl]
    rfl
  have hcolon : ∀ cs, tokens? false (' ' :: ':' :: cs) = sym .colon ++ tokens? false cs := by
    intro cs
    rw [tokens?_blank (by decide) (by decide), tokens?_symbol (s := .colon) (by decide) rfl]
    rfl
  rw [Line.chars_cons, Line.chars_nil, Line.toList_code, List.append_assoc, List.append_assoc, tokens?_indent,
    List.singleton_append, tokens?_line hlast, ht, tokens?_name (by decide) head?_blank,
    tokens?_blank (by decide) (by decide), tokens?_name (by decide) head?_blank, tokens?_blank (by decide) (by decide),
    tokens?_name context.className.isName head?_blank, hcolon, hbase]
  simp only [openingCut, word, Cut.append_assoc, String.ofList_toList]

/-- The header before the model type is read as it stands there, and the name of the model type is the last thing on its
line. -/
theorem header_tells (pragmas : Bool) {context : TypeContext} {d : Declared}
    (hb : Text.isDottedName (d.baseName context).toList = true) (hp : ∀ p ∈ d.headerPos, Readable p)
    (hm : d.model.bind (·.pos) = none ∨ (Line.singleLine (d.modelName context)).toList = (d.modelName context).toList) :
    Tells (Line.select pragmas (headerLines context d))
      (markOf pragmas d.headerPos ++ (openingCut context d ++ writtenCut (d.modelName context))) := by
  have hbaseLine := toList_singleLine_path hb
  unfold headerLines Declared.headerPos
  unfold Declared.headerPos at hp
  -- The line is mapped to the base type if the template names it, else to the model type if the template names that.
  cases hi : d.inherits.bind (·.pos) with
  | some pos =>
    rw [hi] at hp
    refine tells_mapped pragmas hp (headerLine_tells hb ?_)
    simpa [Declared.baseName, Declared.modelName, toString] using hbaseLine
  | none =>
    cases hmo : d.model.bind (·.pos) with
    | some pos =>
      rw [hi, hmo] at hp
      have hmodelLine := hm.resolve_left (by rw [hmo]; exact Option.some_ne_none pos)
      refine tells_mapped pragmas hp (headerLine_tells hb ?_)
      simpa [Declared.baseName, Declared.modelName, toString] using hmodelLine
    | none =>
      show Tells _ (.nil ++ (openingCut context d ++ writtenCut (d.modelName context)))
      rw [Cut.nil_append]
      refine tells_select_code pragmas (headerLine_tells hb ?_)
      simp [Declared.baseName, Declared.modelName, toString]

/-- A dotted name in the header is read as it is. -/
theorem writtenCut_path {name : String} (hn : Text.isDottedName name.toList = true) :
    writtenCut name = pathCut name ++ sym .greater := by
  have hhead : ∀ d ∈ ['>'].head?, Text.isNameChar d = false := by
    rintro _ ⟨⟩
    decide
  rw [writtenCut, tokens?_path hn hhead]
  rfl

/-- What makes the text of a unit readable: its names are names, and its code and places can be read back. -/
structure UnitReady (bases : List BaseType) (context : TypeContext) (d : Declared) (nodes : List Node) : Prop where
  namespaces : ∀ s ∈ usedNamespaces bases context d, Text.isDottedName s.toList = true
  base : Text.isDottedName (d.baseName context).toList = true
  model : Text.isDottedName (d.modelName context).toList = true
  header : ∀ p ∈ d.headerPos, Readable p
  layout : ∀ l ∈ d.layout, ∀ p ∈ l.pos, Readable p
  imported : ∀ f ∈ d.importedFunctions, f.Proper ∧ Tidy (f.code.toList.map Line.oneLine)
  own : ∀ f ∈ d.ownFunctions, f.Proper ∧ Ready f.fragment
  proper : Node.ProperAll true nodes
  code : ∀ f ∈ Node.fragmentsAll nodes, Ready f

theorem layouts_tell (pragmas : Bool) {d : Declared} (h : ∀ l ∈ d.layout, ∀ p ∈ l.pos, Readable p) :
    Tells (Line.select pragmas (layoutLines d))
      (partsCut pragmas (d.layout.map fun l => .layout l.pos d.layoutInherited l.value).toList) := by
  unfold layoutLines
  cases hl : d.layout with
  | none => cases pragmas <;> exact tells_nil
  | some layout =>
    show Tells _ (Part.cut pragmas (.layout layout.pos d.layoutInherited layout.value) ++ .nil)
    rw [Cut.append_nil]
    refine tells_mapped pragmas (h layout hl) ?_
    have hquote := (begins_quote layout.value begins_semicolon).space
    cases d.layoutInherited with
    | false =>
      show Tells _ (.nil ++ _)
      rw [Cut.nil_append]
      refine tells_word (by decide) ?_ head?_blank hquote
      simp [toList_singleLine_quote]
    | true =>
      refine tells_word (by decide) ?_ head?_blank (begins_word (w := "layout") (by decide) head?_blank hquote).space
      simp [toList_singleLine_quote]

theorem function_tells {own : Bool} {f : Markup.FunctionDecl} (hf : f.Proper) (ht : Tidy (f.code.toList.map Line.oneLine))
    (hp : own = true → Readable f.pos) :
    Tells (Line.select pragmas (functionLines own f)) (Part.cut pragmas (.function own f)) := by
  unfold functionLines
  refine tells_mapped pragmas ?_ ?_
  · cases own with
    | false => exact fun p h => nomatch h
    | true =>
      rintro _ ⟨⟩
      exact hp rfl
  · have hcode := begins_code ht (fun ds _ => ends_semicolon ds) begins_semicolon
    have hclose : ∀ d ∈ (')' :: ' ' :: '=' :: '>' :: ' ' :: ((Line.singleLine f.code).toList ++ [';'])).head?,
        Text.isNameChar d = false := by
      rintro _ ⟨⟩
      decide
    have hopen : ∀ cs : List Char, ∀ d ∈ ('(' :: cs).head?, Text.isNameChar d = false := by
      rintro cs _ ⟨⟩
      decide
    have hnames := begins_names hf.params hclose hcode.space.arrow.space.closeParen
    refine tells_word (by decide) ?_ head?_blank (begins_word hf.name (hopen _) hnames.openParen).space
    simp [toString]

/-- The body of a section is between braces, after its name. -/
theorem section_tells {name : String} {pos : SourcePos} {body : List Node} (hp : Node.ProperAll false body)
    (hf : ∀ f ∈ Node.fragmentsAll body, Ready f) :
    Tells (Line.select pragmas (sectionLines (.sectionDef name pos body))) (Part.cut pragmas (.sectionDef name body)) := by
  have hbody := tells_braced 1 (nodes_tell 2 pragmas body hp hf)
  have hquote := begins_quote name begins_nil
  rw [List.append_nil, Cut.append_nil] at hquote
  have hline : Tells [.code 1 s!"section {Json.quote name}"] (word "section" ++ .one (.string name)) := by
    refine tells_word (by decide) ?_ head?_blank hquote.space
    simp [toString]
  show Tells (Line.select pragmas ([.blank] ++ ([.code 1 s!"section {Json.quote name}"] ++ braced 1 (nodeListLines 2 body)))) _
  rw [select_append, select_append, select_braced]
  have hall := (tells_select_blank pragmas).append ((tells_select_code pragmas hline).append hbody)
  simp only [Cut.append_assoc, Cut.nil_append] at hall
  exact hall

theorem sections_tell (pragmas : Bool) {nodes : List Node} (hp : Node.ProperAll true nodes) (hf : ∀ f ∈ Node.fragmentsAll nodes, Ready f) :
    Tells (Line.select pragmas (nodes.flatMap sectionLines)) (partsCut pragmas (nodes.filterMap sectionPart?)) := by
  induction nodes with
  | nil => cases pragmas <;> exact tells_nil
  | cons n ns ih =>
    have hrest := ih hp.2 fun f h => hf f (List.mem_append_right _ h)
    have hn : ∀ f ∈ n.fragments, Ready f := fun f h => hf f (List.mem_append_left _ h)
    rw [List.flatMap_cons, select_append]
    cases n with
    | sectionDef name pos body => exact (section_tells hp.1.2.2 hn).append hrest
    | text | expr | var | ifElse | forEach => cases pragmas <;> exact hrest

/-- The lines before the header. -/
def preludeLines (key : String) (bases : List BaseType) (context : TypeContext) (d : Declared) : List Line :=
  [.code 0 "// <auto-generated />"] ++ ([.code 0 s!"// template: {Line.singleLine key}"] ++
    ([.code 0 s!"namespace {unitNamespace};"] ++ ([.blank] ++
      ((usedNamespaces bases context d).map (fun ns => .code 0 s!"using {ns};") ++ [.blank]))))

/-- The lines after the header. -/
def bodyLines (d : Declared) (nodes : List Node) : List Line :=
  [.code 0 "\x7b"] ++ (layoutLines d ++ (d.importedFunctions.flatMap (functionLines false) ++
    (d.ownFunctions.flatMap (functionLines true) ++ (nodes.flatMap sectionLines ++ ([.blank] ++ ([.code 1 "execute"] ++
      (braced 1 (nodeListLines 2 nodes) ++ [.code 0 "\x7d"])))))))

theorem unitLines_eq (key : String) (bases : List BaseType) (context : TypeContext) (d : Declared) (nodes : List Node) :
    unitLines key bases context d nodes =
      preludeLines key bases context d ++ (headerLines context d ++ bodyLines d nodes) := by
  simp [unitLines, preludeLines, bodyLines]

/-- The tokens before the header. -/
def preludeCut (bases : List BaseType) (context : TypeContext) (d : Declared) : Cut :=
  word "namespace" ++ (pathCut unitNamespace ++ (sym .semicolon ++
    Cut.join ((usedNamespaces bases context d).map usingCut)))

/-- The tokens after the header. -/
def bodyCut (pragmas : Bool) (d : Declared) (nodes : List Node) : Cut :=
  sym .openBrace ++ (partsCut pragmas (parts d nodes) ++ sym .closeBrace)

theorem prelude_tells (pragmas : Bool) (key : String) {bases : List BaseType} {context : TypeContext} {d : Declared}
    (h : ∀ s ∈ usedNamespaces bases context d, Text.isDottedName s.toList = true) :
    Tells (Line.select pragmas (preludeLines key bases context d)) (preludeCut bases context d) := by
  have hcomment : ∀ {text : String} (cs : List Char), text.toList = '/' :: '/' :: cs → '\n' ∉ cs →
      Tells (Line.select pragmas [.code 0 text]) .nil := fun cs ht hcs => tells_select_code pragmas (tells_comment ht hcs)
  have hfirst : Tells (Line.select pragmas [.code 0 "// <auto-generated />"]) .nil :=
    hcomment " <auto-generated />".toList rfl (by decide)
  have hkey : Tells (Line.select pragmas [.code 0 s!"// template: {Line.singleLine key}"]) .nil := by
    refine hcomment (" template: ".toList ++ (Line.singleLine key).toList) (by simp [toString]) ?_
    rw [List.mem_append, Line.toList_singleLine, not_or]
    exact ⟨by decide, Line.map_oneLine_of_not_mem _⟩
  have hspace : Tells (Line.select pragmas [.code 0 s!"namespace {unitNamespace};"])
      (word "namespace" ++ (pathCut unitNamespace ++ sym .semicolon)) := by
    have hname : Text.isDottedName unitNamespace.toList = true := by decide
    have hpath := begins_path hname (ends_semicolon []).head_not_name begins_semicolon
    refine tells_select_code pragmas (tells_word (by decide) ?_ head?_blank hpath.space)
    simp [toString]
  have husings : Tells (Line.select pragmas ((usedNamespaces bases context d).map fun ns => .code 0 s!"using {ns};"))
      (Cut.join ((usedNamespaces bases context d).map usingCut)) := by
    rw [List.map_eq_flatMap]
    exact tells_flatMap fun s hs => tells_select_code pragmas (using_tells (h s hs))
  have hblank := tells_select_blank pragmas
  have hall := hfirst.append (hkey.append (hspace.append (hblank.append (husings.append hblank))))
  rw [preludeLines, preludeCut]
  simp only [select_append]
  simp only [Cut.append_assoc, Cut.nil_append, Cut.append_nil] at hall ⊢
  exact hall

theorem body_tells (pragmas : Bool) {bases : List BaseType} {context : TypeContext} {d : Declared} {nodes : List Node}
    (h : UnitReady bases context d nodes) : Tells (Line.select pragmas (bodyLines d nodes)) (bodyCut pragmas d nodes) := by
  have hopen : Tells (Line.select pragmas [.code 0 "\x7b"]) (sym .openBrace) := tells_select_code pragmas tells_openBrace
  have hclose : Tells (Line.select pragmas [.code 0 "\x7d"]) (sym .closeBrace) := tells_select_code pragmas tells_closeBrace
  have himported : Tells (Line.select pragmas (d.importedFunctions.flatMap (functionLines false)))
      (partsCut pragmas (d.importedFunctions.map (.function false))) := by
    rw [partsCut, List.map_map]
    exact tells_flatMap fun f hf => function_tells (h.imported f hf).1 (h.imported f hf).2 fun h => absurd h Bool.false_ne_true
  have hown : Tells (Line.select pragmas (d.ownFunctions.flatMap (functionLines true)))
      (partsCut pragmas (d.ownFunctions.map (.function true))) := by
    rw [partsCut, List.map_map]
    exact tells_flatMap fun f hf => function_tells (h.own f hf).1 (h.own f hf).2.tidy fun _ => (h.own f hf).2.place
  have hexecute : Tells (Line.select pragmas [.code 1 "execute"]) (word "execute" ++ .nil) :=
    tells_select_code pragmas (tells_word (by decide) (List.append_nil _).symm (by simp) begins_nil)
  have hnodes := tells_braced 1 (nodes_tell 2 pragmas nodes h.proper h.code)
  have hall := hopen.append ((layouts_tell pragmas h.layout).append (himported.append (hown.append
    ((sections_tell pragmas h.proper h.code).append ((tells_select_blank pragmas).append (hexecute.append
      (hnodes.append hclose)))))))
  have hlast : partsCut pragmas [.execute nodes] = word "execute" ++ bracesCut (nodesCut pragmas nodes) :=
    Cut.append_nil _
  rw [bodyLines, bodyCut, parts]
  simp only [select_append, select_braced, partsCut_append, hlast]
  simp only [Cut.append_assoc, Cut.nil_append] at hall ⊢
  exact hall

/-- The tokens of a unit, with those of the text that stands for the name of its model type. -/
def writtenUnitCut (pragmas : Bool) (bases : List BaseType) (context : TypeContext) (d : Declared) (nodes : List Node) :
    Cut :=
  preludeCut bases context d ++ (markOf pragmas d.headerPos ++ (openingCut context d ++
    (writtenCut (d.modelName context) ++ bodyCut pragmas d nodes)))

/-- The text of a unit that would be readable with some model type gives the tokens of its parts, whatever text the name of
its own model type is. -/
theorem unit_tells_written {key : String} {bases : List BaseType} {context : TypeContext} {d : Declared} {nodes : List Node}
    {m : ModelType} (h : UnitReady bases { context with modelType := m } d nodes)
    (hm : d.model.bind (·.pos) = none ∨ (Line.singleLine (d.modelName context)).toList = (d.modelName context).toList) :
    Tells (Line.select pragmas (unitLines key bases context d nodes)) (writtenUnitCut pragmas bases context d nodes) := by
  have hbase : Text.isDottedName (d.baseName context).toList = true := h.base
  have hspaces : ∀ s ∈ usedNamespaces bases context d, Text.isDottedName s.toList = true := h.namespaces
  have hall := (prelude_tells pragmas key hspaces).append
    ((header_tells pragmas hbase h.header hm).append (body_tells pragmas h))
  rw [unitLines_eq, select_append, select_append]
  simp only [writtenUnitCut, Cut.append_assoc] at hall ⊢
  exact hall

/-- A unit whose model type is named by a dotted name, like any other name in it. -/
theorem writtenUnitCut_path {pragmas : Bool} {bases : List BaseType} {context : TypeContext} {d : Declared}
    {nodes : List Node} {m : ModelType}
    (h : writtenCut (d.modelName context) = pathCut (d.modelName { context with modelType := m }) ++ sym .greater) :
    writtenUnitCut pragmas bases context d nodes = unitCut pragmas bases { context with modelType := m } d nodes := by
  rw [writtenUnitCut, h, unitCut, headerCut, preludeCut, openingCut, bodyCut]
  simp only [Cut.append_assoc]
  rfl

/-- The text of a unit gives the tokens of its parts. -/
theorem unit_tells {key : String} {bases : List BaseType} {context : TypeContext} {d : Declared} {nodes : List Node}
    (h : UnitReady bases context d nodes) :
    Tells (Line.select pragmas (unitLines key bases context d nodes)) (unitCut pragmas bases context d nodes) := by
  have hall := @unit_tells_written pragmas key bases context d nodes context.modelType h
    (.inr (toList_singleLine_path h.model))
  rwa [writtenUnitCut_path (m := context.modelType) (writtenCut_path h.model)] at hall

end

end Stencil.Unit
