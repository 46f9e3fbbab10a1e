import Stencil.Proofs.Markup.Readers
import Stencil.Proofs.Markup.Scanning

/-! What holds of every document that is read from a text.

Each piece of embedded code is a stretch of the text at its place, closed, trimmed and not blank. Names are names,
sections stand at the top level, and the code of variables, functions and expressions without parentheses has no
semicolon outside brackets and literals. -/

namespace Stencil

/-- The cursor stands in the text, at the right place. -/
def Cursor.At (text : List Char) (c : Cursor) : Prop := ∃ read, (Cursor.ofText text).Reads read c

namespace Cursor
variable {text r : List Char} {c d : Cursor}

theorem At.reads (h : c.At text) (hr : c.Reads r d) : d.At text := by
  obtain ⟨read, h⟩ := h
  exact ⟨read ++ r, h.trans hr⟩

theorem at_ofText (text : List Char) : (Cursor.ofText text).At text := ⟨[], .refl _⟩

theorem At.skip (h : c.At text) (n : Nat) : (c.skip n).At text := h.reads (reads_skip c n)

theorem At.next (h : c.At text) : c.next.At text := h.skip 1

theorem At.takeWhile (h : c.At text) (p : Char → Bool) : (c.takeWhile p).2.At text := h.reads (reads_takeWhile c p)

theorem At.eat? {x : Char} (h : c.At text) (hd : c.eat? x = some d) : d.At text := by
  unfold Cursor.eat? at hd
  split at hd
  · cases hd
    exact h.next
  · cases hd

theorem At.keyword? {word : List Char} (h : c.At text) (hd : c.keyword? word = some d) : d.At text :=
  h.reads (reads_of_eatText? (Option.filter_eq_some_iff.mp hd).1)

theorem At.dropBlankLineEnd (h : c.At text) : c.dropBlankLineEnd.At text := by
  unfold Cursor.dropBlankLineEnd
  cases hb : c.blankLineEnd? with
  | none => exact h
  | some d =>
    have hi : c.skipInlineBlanks.At text := h.takeWhile _
    have hr : ((c.skipInlineBlanks.eat? '\r').getD c.skipInlineBlanks).At text := by
      cases he : c.skipInlineBlanks.eat? '\r' with
      | none => exact hi
      | some e => exact hi.eat? he
    unfold blankLineEnd? at hb
    dsimp only at hb
    split at hb
    · cases hb
      exact hr
    · exact hr.eat? hb

/-- The cursor stands in the text, right behind an at sign. -/
def BehindAt (text : List Char) (c : Cursor) : Prop := ∃ read, (Cursor.ofText text).Reads (read ++ ['@']) c

theorem BehindAt.at_text (h : c.BehindAt text) : c.At text := by
  obtain ⟨read, h⟩ := h
  exact ⟨_, h⟩

theorem At.behindAt (h : c.At text) (hc : c.peek? = some '@') : c.next.BehindAt text := by
  obtain ⟨read, h⟩ := h
  exact ⟨read, h.trans (reads_of_peek? hc)⟩

theorem name?_eq_some {name : List Char} (h : c.name? = some (name, d)) :
    Text.isName name = true ∧ d = (c.takeWhile Text.isNameChar).2 := by
  unfold Cursor.name? at h
  split at h
  · rename_i hs
    cases h
    refine ⟨?_, rfl⟩
    obtain ⟨rest, pos⟩ := c
    cases rest with
    | nil => cases hs
    | cons x xs =>
      have hx : Text.isNameStart x = true := hs
      show Text.isName (List.takeWhile Text.isNameChar (x :: xs)) = true
      rw [List.takeWhile_cons_of_pos (Text.isNameChar_of_isNameStart hx), Text.isName, hx, List.all_takeWhile]
      rfl
  · cases h

/-- What stands under a cursor stands in the text. -/
theorem At.fragment (h : c.At text) (hr : c.Reads r d) : Markup.Fragment.At text ⟨r, c.pos⟩ := by
  obtain ⟨read, hrest, hpos⟩ := h
  exact ⟨read, d.rest, by rw [List.append_assoc, ← hr.1]; exact hrest, hpos⟩

end Cursor

namespace Markup

/-! ### Documents -/

/-- Code that is delimited in a text: a stretch of it that is closed. -/
structure Fragment.In (text : List Char) (f : Fragment) : Prop where
  stands : f.At text
  closed : Closed f.text

/-- Code that is embedded in a text: a stretch of it that is closed, trimmed and not blank. -/
structure Fragment.CodeIn (text : List Char) (f : Fragment) : Prop extends Fragment.In text f where
  trimmed : Text.trim f.text = f.text
  notBlank : Text.allBlank f.text = false

/-- The code stands right behind an at sign. -/
def Fragment.BehindAt (text : List Char) (f : Fragment) : Prop :=
  ∃ before after, text = before ++ '@' :: (f.text ++ after) ∧ f.start = SourcePos.start.after (before ++ ['@'])

/-- The code stands in the parentheses behind an at sign, with nothing but blanks around it. -/
def Fragment.InParens (text : List Char) (f : Fragment) : Prop :=
  ∃ before gap gap' after, text = before ++ '@' :: '(' :: (gap ++ f.text ++ gap' ++ ')' :: after) ∧
    Text.allBlank gap = true ∧ Text.allBlank gap' = true ∧ f.start = SourcePos.start.after (before ++ '@' :: '(' :: gap)

/-- The code of an expression: without parentheses around it it has no semicolon outside brackets and literals. -/
def Fragment.Written (text : List Char) (f : Fragment) : Prop :=
  (f.BehindAt text ∧ Sealed f.text) ∨ f.InParens text

mutual

/-- The embedded code of a node. -/
def Node.fragments : Node → List Fragment
  | .text _ _ => []
  | .expr code pos | .var _ code pos => [⟨code.toList, pos⟩]
  | .ifElse branches none => Branch.fragmentsAll branches
  | .ifElse branches (some body) => Branch.fragmentsAll branches ++ Node.fragmentsAll body
  | .forEach _ source pos body => ⟨source.toList, pos⟩ :: Node.fragmentsAll body
  | .sectionDef _ _ body => Node.fragmentsAll body

/-- The embedded code of nodes. -/
def Node.fragmentsAll : List Node → List Fragment
  | [] => []
  | n :: ns => n.fragments ++ Node.fragmentsAll ns

/-- The embedded code of alternatives. -/
def Branch.fragmentsAll : List Branch → List Fragment
  | [] => []
  | .mk cond pos body :: bs => ⟨cond.toList, pos⟩ :: (Node.fragmentsAll body ++ Branch.fragmentsAll bs)

end

mutual

/-- The expressions among the embedded code of a node. -/
def Node.expressions : Node → List Fragment
  | .text _ _ | .var _ _ _ => []
  | .expr code pos => [⟨code.toList, pos⟩]
  | .ifElse branches none => Branch.expressionsAll branches
  | .ifElse branches (some body) => Branch.expressionsAll branches ++ Node.expressionsAll body
  | .forEach _ _ _ body | .sectionDef _ _ body => Node.expressionsAll body

/-- The expressions among the embedded code of nodes. -/
def Node.expressionsAll : List Node → List Fragment
  | [] => []
  | n :: ns => n.expressions ++ Node.expressionsAll ns

/-- The expressions among the embedded code of alternatives. -/
def Branch.expressionsAll : List Branch → List Fragment
  | [] => []
  | .mk _ _ body :: bs => Node.expressionsAll body ++ Branch.expressionsAll bs

end

/-- The code of a function, with its place. -/
def FunctionDecl.fragment (f : FunctionDecl) : Fragment := ⟨f.code.toList, f.pos⟩

/-- The embedded code of a document. -/
def Document.fragments (d : Document) : List Fragment :=
  d.directives.functions.map (·.fragment) ++ Node.fragmentsAll d.nodes

mutual

/-- What holds of a node that is read: its names are names, its variables end with their code, and sections stand at
the top level. -/
def Node.Proper (top : Bool) : Node → Prop
  | .text _ _ | .expr _ _ => True
  | .var name code _ => Text.isName name.toList = true ∧ Sealed code.toList
  | .ifElse branches none => branches ≠ [] ∧ Branch.ProperAll branches
  | .ifElse branches (some body) => branches ≠ [] ∧ Branch.ProperAll branches ∧ Node.ProperAll false body
  | .forEach var _ _ body => Text.isName var.toList = true ∧ Node.ProperAll false body
  | .sectionDef name _ body => top = true ∧ Text.isName name.toList = true ∧ Node.ProperAll false body

def Node.ProperAll (top : Bool) : List Node → Prop
  | [] => True
  | n :: ns => n.Proper top ∧ Node.ProperAll top ns

def Branch.ProperAll : List Branch → Prop
  | [] => True
  | .mk _ _ body :: bs => Node.ProperAll false body ∧ Branch.ProperAll bs

end

/-- What holds of a function that is read. -/
structure FunctionDecl.Proper (f : FunctionDecl) : Prop where
  name : Text.isName f.name.toList = true
  params : ∀ p ∈ f.params, Text.isName p.toList = true
  distinct : f.params.Nodup
  sealed : Sealed f.code.toList

/-- The place of a character of the text, or the place behind the last one. -/
def PlaceIn (text : List Char) (pos : SourcePos) : Prop := ∃ before, before <+: text ∧ pos = SourcePos.start.after before

theorem Fragment.At.place {text : List Char} {f : Fragment} (h : f.At text) : PlaceIn text f.start := by
  obtain ⟨before, after, htext, hstart⟩ := h
  exact ⟨before, ⟨f.text ++ after, by rw [htext, List.append_assoc]⟩, hstart⟩

theorem place_of_at {text : List Char} {c : Cursor} (h : c.At text) : PlaceIn text c.pos := by
  obtain ⟨read, hrest, hpos⟩ := h
  exact ⟨read, ⟨c.rest, hrest.symm⟩, hpos⟩

/-- The value of a directive stands at its place, or behind blanks there that start with neither a space nor a tab. -/
def Directive.Stands (text : List Char) (d : Directive) : Prop :=
  ∃ before gap after, text = before ++ (gap ++ (d.value.toList ++ after)) ∧ d.pos = SourcePos.start.after before ∧
    (∀ c ∈ gap, Text.isBlank c = true ∧ c ≠ '\n') ∧ ∀ c ∈ gap.head?, Cursor.isInlineBlank c = false

/-- What holds of the directives that are read from a text. -/
structure Directives.From (text : List Char) (ds : Directives) : Prop where
  model : ∀ d ∈ ds.model, Text.isDottedName d.value.toList = true
  inherits : ∀ d ∈ ds.inherits, Text.isDottedName d.value.toList = true
  usings : ∀ d ∈ ds.usings, Text.isDottedName d.value.toList = true
  layout : ∀ d ∈ ds.layout, d.value ≠ ""
  functions : ∀ f ∈ ds.functions, f.Proper ∧ f.fragment.CodeIn text
  names : (ds.functions.map (·.name)).Nodup
  places : ∀ d, d ∈ ds.layout ∨ d ∈ ds.model ∨ d ∈ ds.inherits → PlaceIn text d.pos
  stands : ∀ d, d ∈ ds.model ∨ d ∈ ds.inherits → d.Stands text

/-- What holds of a node that is read from a text. -/
structure NodeFrom (text : List Char) (top : Bool) (n : Node) : Prop where
  proper : n.Proper top
  fragments : ∀ f ∈ n.fragments, f.CodeIn text
  expressions : ∀ f ∈ n.expressions, f.Written text

/-- What holds of the nodes that are read from a text. -/
structure NodesFrom (text : List Char) (top : Bool) (ns : List Node) : Prop where
  proper : Node.ProperAll top ns
  fragments : ∀ f ∈ Node.fragmentsAll ns, f.CodeIn text
  expressions : ∀ f ∈ Node.expressionsAll ns, f.Written text

/-- What holds of the alternatives that are read from a text. -/
structure BranchesFrom (text : List Char) (bs : List Branch) : Prop where
  proper : Branch.ProperAll bs
  fragments : ∀ f ∈ Branch.fragmentsAll bs, f.CodeIn text
  expressions : ∀ f ∈ Branch.expressionsAll bs, f.Written text

/-- What holds of a document that is read from a text. -/
structure Document.From (text : List Char) (d : Document) : Prop where
  nodes : NodesFrom text true d.nodes
  directives : d.directives.From text

theorem Document.From.fragment {text : List Char} {d : Document} (h : d.From text) {f : Fragment}
    (hf : f ∈ d.fragments) : f.CodeIn text := by
  rcases List.mem_append.mp hf with hf | hf
  · obtain ⟨fn, hfn, rfl⟩ := List.mem_map.mp hf
    exact (h.directives.functions fn hfn).2
  · exact h.nodes.fragments f hf

/-- What holds of what has been read of a text. -/
structure Progress.From (text : List Char) (p : Progress) : Prop where
  cursor : p.cursor.At text
  directives : p.directives.From text

section
variable {text : List Char} {top : Bool} {ns ms : List Node} {n : Node}

theorem nodesFrom_nil : NodesFrom text top [] := ⟨trivial, nofun, nofun⟩

theorem nodesFrom_cons_iff : NodesFrom text top (n :: ns) ↔ NodeFrom text top n ∧ NodesFrom text top ns := by
  constructor
  · rintro ⟨⟨hn, hns⟩, hf, he⟩
    exact ⟨⟨hn, fun f h => hf f (List.mem_append_left _ h), fun f h => he f (List.mem_append_left _ h)⟩,
      ⟨hns, fun f h => hf f (List.mem_append_right _ h), fun f h => he f (List.mem_append_right _ h)⟩⟩
  · rintro ⟨hn, hns⟩
    exact ⟨⟨hn.proper, hns.proper⟩, fun f h => (List.mem_append.mp h).elim (hn.fragments f) (hns.fragments f),
      fun f h => (List.mem_append.mp h).elim (hn.expressions f) (hns.expressions f)⟩

theorem nodesFrom_singleton (hn : NodeFrom text top n) : NodesFrom text top [n] :=
  nodesFrom_cons_iff.mpr ⟨hn, nodesFrom_nil⟩

theorem NodesFrom.append (hn : NodesFrom text top ns) (hm : NodesFrom text top ms) : NodesFrom text top (ns ++ ms) := by
  induction ns with
  | nil => exact hm
  | cons n ns ih =>
    obtain ⟨hn, hns⟩ := nodesFrom_cons_iff.mp hn
    exact nodesFrom_cons_iff.mpr ⟨hn, ih hns⟩

theorem NodesFrom.reverse (h : NodesFrom text top ns) : NodesFrom text top ns.reverse := by
  induction ns with
  | nil => exact h
  | cons n ns ih =>
    obtain ⟨hn, hns⟩ := nodesFrom_cons_iff.mp h
    rw [List.reverse_cons]
    exact (ih hns).append (nodesFrom_singleton hn)

end

/-! ### Regions -/

section
variable {text : List Char} {c d : Cursor} {f : Fragment}

theorem balanced_at (hc : c.At text) (h : balanced c = .ok (f, d)) : f.In text ∧ d.At text := by
  obtain ⟨hclosed, o, e, -, hrest, hstart, hpos⟩ := balanced_eq_ok h
  have hopen : c.Reads [o] ⟨f.text ++ e :: d.rest, f.start⟩ := ⟨hrest, hstart⟩
  have hinner : Cursor.Reads ⟨f.text ++ e :: d.rest, f.start⟩ f.text ⟨e :: d.rest, f.start.after f.text⟩ := ⟨rfl, rfl⟩
  have hclose : Cursor.Reads ⟨e :: d.rest, f.start.after f.text⟩ [e] d := ⟨rfl, hpos⟩
  have hin := hc.reads hopen
  exact ⟨⟨hin.fragment hinner, hclosed⟩, (hin.reads hinner).reads hclose⟩

theorem trim_trim (cs : List Char) : Text.trim (Text.trim cs) = Text.trim cs :=
  Text.trim_of_ends (fun _ h => Text.isBlank_of_head?_trim h) fun _ h => Text.isBlank_of_getLast?_trim h

theorem Fragment.In.trim (h : f.In text) (hb : ¬f.trim.isBlank = true) : f.trim.CodeIn text where
  stands := h.stands.trim
  closed := h.closed.trim
  trimmed := trim_trim f.text
  notBlank := by simpa [Fragment.isBlank] using hb

/-- What stands behind a text that a search finds is closed, and it has a semicolon outside brackets and literals only if
the code in which it is found has one. -/
theorem Fragment.In.behind {needle : List Char} {n : Nat} (h : f.In text) (hn : ∀ x ∈ needle, IsPlain x)
    (hfound : findTopLevel f.text needle = some n) :
    (f.drop (n + needle.length)).In text ∧ (Sealed f.text → Sealed (f.drop (n + needle.length)).text) := by
  obtain ⟨before, rest, htext, hlen, hbefore, hrest⟩ := closed_of_findTopLevel h.closed hn hfound
  have hdrop : (f.drop (n + needle.length)).text = rest := by
    show f.text.drop (n + needle.length) = rest
    rw [htext]
    exact List.drop_left' (by simp [hlen])
  refine ⟨⟨h.stands.drop _, hdrop ▸ hrest⟩, fun hs => ?_⟩
  rw [htext] at hs
  exact hdrop ▸ hs.right (hbefore.append (closed_plain hn))

theorem parenthesized_at {keyword : String} (hc : c.At text) (h : parenthesized keyword c = .ok (f, d)) :
    f.CodeIn text ∧ d.At text := by
  obtain ⟨inner, hinner, hb, rfl⟩ := parenthesized_eq_ok h
  obtain ⟨hin, hd⟩ := balanced_at (hc.takeWhile _) hinner
  exact ⟨hin.trim hb, hd⟩

theorem openBrace_at {what : String} {pos : SourcePos} (hc : c.At text) (h : openBrace what c = .ok (pos, d)) :
    d.At text := (hc.takeWhile _).eat? (openBrace_eq_ok h)

end

/-! ### Expressions -/

section
variable {text : List Char} {c d : Cursor}

/-- Code that stands in a row: closed, without semicolons outside brackets and literals, and not ending with a blank. -/
structure Row (cs : List Char) : Prop where
  closed : Closed cs
  sealed : Sealed cs
  last : ∀ x ∈ cs.getLast?, Text.isBlank x = false

theorem row_nil : Row [] := ⟨rfl, sealed_of_not_mem (by simp), fun _ h => nomatch h⟩

theorem Row.append {cs ds : List Char} (hc : Row cs) (hd : Row ds) : Row (cs ++ ds) where
  closed := hc.closed.append hd.closed
  sealed := hc.sealed.append hc.closed hd.sealed
  last x hx := by
    rw [List.getLast?_append, Option.mem_def, Option.or_eq_some_iff] at hx
    rcases hx with hx | ⟨-, hx⟩
    · exact hd.last x hx
    · exact hc.last x hx

theorem row_name {name : List Char} (h : ∀ x ∈ name, Text.isNameChar x = true) : Row name where
  closed := closed_plain fun x hx => isPlain_of_isNameChar (h x hx)
  sealed := sealed_of_not_mem fun hx => absurd (h _ hx) (by decide)
  last x hx := Text.not_blank_of_isNameChar (h x (List.mem_of_getLast? hx))

theorem row_dot : Row ['.'] where
  closed := rfl
  sealed := sealed_of_not_mem (by decide)
  last x hx := by
    cases hx
    decide

theorem row_parens {args : List Char} (h : Closed args) : Row ('(' :: args ++ [')']) where
  closed := closed_parens h
  sealed := sealed_parens h
  last x hx := by
    rw [List.getLast?_concat] at hx
    cases hx
    decide

/-- A chain of accesses is a row of names and argument lists. -/
theorem memberChain_reads {fuel : Nat} {tail : List Char} (h : memberChain fuel c = .ok (tail, d)) :
    c.Reads tail d ∧ Row tail := by
  induction fuel generalizing c tail with
  | zero =>
    cases h
    exact ⟨.refl _, row_nil⟩
  | succ fuel ih =>
    unfold memberChain at h
    split at h
    · rename_i hdot
      obtain ⟨⟨rest, d'⟩, hrest, h⟩ := Except.bind_eq_ok.mp h
      cases h
      obtain ⟨hread, hrow⟩ := ih hrest
      -- The chain goes on with a point and a name.
      have hname := Cursor.reads_takeWhile c.next Text.isNameChar
      refine ⟨((Cursor.reads_of_peek? hdot.1).trans hname).trans hread, ?_⟩
      exact (row_dot.append (row_name fun x => List.all_eq_true.mp List.all_takeWhile x)).append hrow
    · split at h
      · rename_i hopen
        obtain ⟨⟨args, c'⟩, hargs, h⟩ := Except.bind_eq_ok.mp h
        obtain ⟨⟨rest, d'⟩, hrest, h⟩ := Except.bind_eq_ok.mp h
        cases h
        obtain ⟨hread, hrow⟩ := ih hrest
        -- The chain goes on with arguments in parentheses.
        obtain ⟨hin, o, e, ho, hc, hstart, hpos⟩ := balanced_eq_ok (region_eq_ok hargs)
        cases (Cursor.peek?_eq hc).symm.trans hopen
        cases ho
        have hparens : c.Reads ('(' :: args.text ++ [')']) c' := by
          refine ⟨by rw [hc]; simp, ?_⟩
          rw [hpos, hstart]
          simp
        exact ⟨by simpa using hparens.trans hread, by simpa using (row_parens hin).append hrow⟩
      · cases h
        exact ⟨.refl _, row_nil⟩

/-- A row that starts with a name neither starts nor ends with a blank. -/
theorem Row.trimmed {name tail : List Char} (ht : Row (name ++ tail)) (hn : Text.isName name = true) :
    Text.trim (name ++ tail) = name ++ tail ∧ Text.allBlank (name ++ tail) = false := by
  cases name with
  | nil => cases hn
  | cons x xs =>
    rw [Text.isName, Bool.and_eq_true] at hn
    have hx : Text.isBlank x = false := Text.not_blank_of_isNameStart hn.1
    refine ⟨Text.trim_of_ends (fun y hy => ?_) ht.last, ?_⟩
    · cases hy
      exact hx
    · rw [List.cons_append, Text.allBlank, List.all_cons, hx, Bool.false_and]

theorem implicitExpression_from {top : Bool} {n : Node} (hc : c.BehindAt text)
    (hstart : c.nextIs Text.isNameStart = true) (h : implicitExpression c = .ok (n, d)) : NodesFrom text top [n] ∧ d.At text := by
  obtain ⟨fuel, tail, htail, rfl⟩ := implicitExpression_eq_ok h
  obtain ⟨hread, htail⟩ := memberChain_reads htail
  obtain ⟨hname, -⟩ := Cursor.name?_eq_some (show c.name? = some (c.takeWhile Text.isNameChar) from if_pos hstart)
  have hall := (Cursor.reads_takeWhile c Text.isNameChar).trans hread
  have hrow := (row_name fun x => Text.isNameChar_of_isName hname).append htail
  obtain ⟨htrimmed, hblank⟩ := hrow.trimmed hname
  have hbehind : Fragment.BehindAt text ⟨c.rest.takeWhile Text.isNameChar ++ tail, c.pos⟩ := by
    obtain ⟨read, hrest, hpos⟩ := hc
    refine ⟨read, d.rest, ?_, hpos⟩
    have hcode : c.rest = c.rest.takeWhile Text.isNameChar ++ tail ++ d.rest := hall.1
    rw [List.append_assoc, hcode] at hrest
    exact hrest
  refine ⟨nodesFrom_singleton ⟨trivial, fun f hf => ?_, fun f hf => ?_⟩, hc.at_text.reads hall⟩
  · cases List.mem_singleton.mp hf
    rw [String.toList_ofList]
    exact ⟨⟨hc.at_text.fragment hall, hrow.closed⟩, htrimmed, hblank⟩
  · cases List.mem_singleton.mp hf
    rw [String.toList_ofList]
    exact .inl ⟨hbehind, hrow.sealed⟩

/-- A region behind an at sign holds its code between blanks. -/
theorem inParens_trim {inner : Fragment} (hc : c.BehindAt text) (hopen : c.peek? = some '(')
    (h : balanced c = .ok (inner, d)) : inner.trim.InParens text := by
  obtain ⟨-, o, e, ho, hrest, hstart, -⟩ := balanced_eq_ok h
  cases (Cursor.peek?_eq hrest).symm.trans hopen
  cases ho
  obtain ⟨read, hread, hpos⟩ := hc
  obtain ⟨gap, gap', hgaps, hgap, hblank, hblank'⟩ := trim_eq inner.text
  refine ⟨read, gap, gap', d.rest, ?_, hblank, hblank', ?_⟩
  · show text = read ++ '@' :: '(' :: (gap ++ Text.trim inner.text ++ gap' ++ ')' :: d.rest)
    rw [← hgaps, ← hrest, ← List.singleton_append, ← List.append_assoc]
    exact hread
  · show inner.start.after (inner.text.takeWhile Text.isBlank) = _
    rw [← hgap, hstart, hpos, SourcePos.after_append, SourcePos.after_append]
    rfl

theorem explicitExpression_from {top : Bool} {pos : SourcePos} {n : Node} (hc : c.BehindAt text)
    (hopen : c.peek? = some '(') (h : explicitExpression pos c = .ok (n, d)) : NodesFrom text top [n] ∧ d.At text := by
  obtain ⟨inner, hinner, hb, rfl⟩ := explicitExpression_eq_ok h
  obtain ⟨hin, hd⟩ := balanced_at hc.at_text hinner
  refine ⟨nodesFrom_singleton ⟨trivial, fun f hf => ?_, fun f hf => ?_⟩, hd⟩
  · cases List.mem_singleton.mp hf
    rw [String.toList_ofList]
    exact hin.trim hb
  · cases List.mem_singleton.mp hf
    rw [String.toList_ofList]
    exact .inr (inParens_trim hc hopen hinner)

end

/-! ### Control blocks -/

/-- What holds of a reader of blocks. -/
def BodyFrom (text : List Char) (body : BodyReader) : Prop :=
  ∀ block p ns p', block.isTopLevel = false → body block p = .ok (ns, p') → p.From text →
    NodesFrom text false ns ∧ p'.From text

section
variable {text : List Char} {body : BodyReader} {block : Block} {p p' : Progress} {n : Node} {top : Bool}

theorem Progress.From.at_cursor (h : p.From text) {c : Cursor} (hc : c.At text) :
    Progress.From text { p with cursor := c } := ⟨hc, h.directives⟩

theorem elseKeyword?_at {c d : Cursor} (hc : c.At text) (h : elseKeyword? c = some d) : d.At text := by
  obtain ⟨e, he, rfl⟩ := Option.map_eq_some_iff.mp h
  exact ((hc.takeWhile _).keyword? he).takeWhile _

theorem fragment_ofList (f : Fragment) : (⟨(String.ofList f.text).toList, f.start⟩ : Fragment) = f := by
  rw [String.toList_ofList]

/-- An alternative with its first branch, and what follows it. -/
theorem branchesFrom_cons {cond : Fragment} {ns : List Node} {bs : List Branch} (hc : cond.CodeIn text)
    (hn : NodesFrom text false ns) (hb : BranchesFrom text bs) :
    BranchesFrom text (.mk (String.ofList cond.text) cond.start ns :: bs) where
  proper := ⟨hn.proper, hb.proper⟩
  fragments f hf := by
    rcases List.mem_cons.mp hf with rfl | hf
    · rwa [fragment_ofList]
    · exact (List.mem_append.mp hf).elim (hn.fragments f) (hb.fragments f)
  expressions f hf := (List.mem_append.mp hf).elim (hn.expressions f) (hb.expressions f)

theorem branchesFrom_nil : BranchesFrom text [] := ⟨trivial, nofun, nofun⟩

theorem alternatives_from (hbody : BodyFrom text body) {fuel : Nat} {bs : List Branch} {o : Option (List Node)}
    (hp : p.From text) (h : alternatives body block fuel p = .ok (bs, o, p')) :
    bs ≠ [] ∧ BranchesFrom text bs ∧ (∀ ns ∈ o, NodesFrom text false ns) ∧ p'.From text := by
  induction fuel generalizing p bs o with
  | zero => cases h
  | succ fuel ih =>
    obtain ⟨cond, c, opened, c', ns, q, hcond, hopen, hns, hrest⟩ := alternatives_eq_ok h
    obtain ⟨hc, hcur⟩ := parenthesized_at hp.cursor hcond
    obtain ⟨hn, hq⟩ := hbody _ _ _ _ rfl hns (hp.at_cursor (openBrace_at hcur hopen))
    have helse : ∀ {d : Cursor}, elseKeyword? q.cursor = some d → d.At text := elseKeyword?_at hq.cursor
    rcases hrest with ⟨rfl, rfl, rfl⟩ | ⟨d, e, bs', hd, he, hrest, rfl⟩ | ⟨d, opened', e, ms, hd, hopen', hms, rfl, rfl⟩
    · exact ⟨List.cons_ne_nil _ _, branchesFrom_cons hc hn branchesFrom_nil, nofun, hq⟩
    · obtain ⟨-, hbs, ho, hq'⟩ := ih (hq.at_cursor ((helse hd).keyword? he)) hrest
      exact ⟨List.cons_ne_nil _ _, branchesFrom_cons hc hn hbs, ho, hq'⟩
    · obtain ⟨hm, hq'⟩ := hbody _ _ _ _ rfl hms (hq.at_cursor (openBrace_at (helse hd) hopen'))
      refine ⟨List.cons_ne_nil _ _, branchesFrom_cons hc hn branchesFrom_nil, ?_, hq'⟩
      rintro _ ⟨⟩
      exact hm

theorem ifBlock_from (hbody : BodyFrom text body) (hp : p.From text) (h : ifBlock body block p = .ok (n, p')) :
    NodesFrom text top [n] ∧ p'.From text := by
  obtain ⟨fuel, bs, o, halt, rfl⟩ := ifBlock_eq_ok h
  obtain ⟨hne, hbs, ho, hq⟩ := alternatives_from hbody hp halt
  cases o with
  | none => exact ⟨nodesFrom_singleton ⟨⟨hne, hbs.proper⟩, hbs.fragments, hbs.expressions⟩, hq⟩
  | some ns =>
    have hns := ho ns rfl
    refine ⟨nodesFrom_singleton ⟨⟨hne, hbs.proper, hns.proper⟩, fun f hf => ?_, fun f hf => ?_⟩, hq⟩
    · exact (List.mem_append.mp hf).elim (hbs.fragments f) (hns.fragments f)
    · exact (List.mem_append.mp hf).elim (hbs.expressions f) (hns.expressions f)

theorem loopHeader?_in {header source : Fragment} {var : List Char} (hh : header.In text)
    (h : loopHeader? header = some (var, source)) : Text.isName var = true ∧ source.CodeIn text := by
  obtain ⟨split, hsplit, h⟩ := Option.bind_eq_some_iff.mp h
  dsimp only at h
  split at h
  · rename_i hv
    cases h
    obtain ⟨hin, -⟩ := hh.behind (isPlain_of_all (by decide)) hsplit
    exact ⟨hv.1, hin.trim hv.2⟩
  · cases h

theorem forEachBlock_from (hbody : BodyFrom text body) (hp : p.From text)
    (h : forEachBlock body block p = .ok (n, p')) : NodesFrom text top [n] ∧ p'.From text := by
  obtain ⟨header, c, var, source, opened, c', ns, hheader, hloop, hopen, hns, rfl⟩ := forEachBlock_eq_ok h
  obtain ⟨hh, hc⟩ := parenthesized_at hp.cursor hheader
  obtain ⟨hv, hs⟩ := loopHeader?_in hh.toIn hloop
  obtain ⟨hn, hq⟩ := hbody _ _ _ _ rfl hns (hp.at_cursor (openBrace_at hc hopen))
  refine ⟨nodesFrom_singleton ⟨⟨by rwa [String.toList_ofList], hn.proper⟩, fun f hf => ?_, hn.expressions⟩, hq⟩
  rcases List.mem_cons.mp hf with rfl | hf
  · rwa [fragment_ofList]
  · exact hn.fragments f hf

theorem sectionBlock_from (hbody : BodyFrom text body) {pos : SourcePos} (hp : p.From text)
    (h : sectionBlock body pos block p = .ok (n, p')) : NodesFrom text block.isTopLevel [n] ∧ p'.From text := by
  obtain ⟨htop, name, c, label, opened, c', ns, q, hname, -, hopen, hns, rfl, rfl⟩ := sectionBlock_eq_ok h
  obtain ⟨hn, rfl⟩ := Cursor.name?_eq_some hname
  have hc := openBrace_at ((hp.cursor.takeWhile Cursor.isInlineBlank).takeWhile Text.isNameChar) hopen
  obtain ⟨hns, hq⟩ := hbody _ _ _ _ rfl hns ⟨hc, hp.directives⟩
  refine ⟨nodesFrom_singleton ⟨⟨htop, by rwa [String.toList_ofList], hns.proper⟩, hns.fragments, hns.expressions⟩, ?_⟩
  exact hq.at_cursor hq.cursor.dropBlankLineEnd

end

/-! ### Directives -/

section
variable {text : List Char} {block : Block} {p p' : Progress} {ds ds' : Directives}

theorem directiveValue_dotted {keyword : String} {raw value : List Char} (h : directiveValue keyword raw = .ok value)
    (hk : keyword ≠ "layout") : Text.isDottedName value = true := by
  unfold directiveValue at h
  rw [if_neg hk] at h
  dsimp only at h
  split at h
  · rename_i hd
    cases h
    exact hd
  · cases h

theorem directiveValue_ne_nil {keyword : String} {raw value : List Char} (h : directiveValue keyword raw = .ok value) :
    value ≠ [] := by
  by_cases hk : keyword = "layout"
  · unfold directiveValue at h
    rw [if_pos hk] at h
    dsimp only at h
    split at h
    · cases h
    · rename_i hv
      cases h
      exact fun hnil => hv (hnil ▸ rfl)
  · rintro rfl
    exact absurd (directiveValue_dotted h hk) (by decide)

theorem ofList_ne_empty {cs : List Char} (h : cs ≠ []) : String.ofList cs ≠ "" :=
  fun he => h (String.ofList_injective he)

theorem directiveValue_stands {keyword : String} {raw value : List Char} (h : directiveValue keyword raw = .ok value)
    (hk : keyword ≠ "layout") : ∃ gap after, raw = gap ++ (value ++ after) ∧ Text.allBlank gap = true := by
  unfold directiveValue at h
  rw [if_neg hk] at h
  dsimp only at h
  split at h
  · cases h
    have hsemicolons : raw = trimSemicolons raw ++ (raw.reverse.takeWhile (· == ';')).reverse := by
      rw [trimSemicolons, ← List.reverse_append, List.takeWhile_append_dropWhile, List.reverse_reverse]
    obtain ⟨gap, after, htrim, -, hgap, -⟩ := trim_eq (trimSemicolons raw)
    refine ⟨gap, after ++ (raw.reverse.takeWhile (· == ';')).reverse, ?_, hgap⟩
    rw [← List.append_assoc, ← List.append_assoc, ← htrim]
    exact hsemicolons
  · cases h

/-- What is left of a line behind its spaces and tabs starts with the value, or with other blanks. -/
theorem lineDirective_stands {keyword : String} {c : Cursor} {value : List Char} (hc : c.At text)
    (h : directiveValue keyword (Text.trim c.skipInlineBlanks.line.1) = .ok value) (hk : keyword ≠ "layout") :
    Directive.Stands text ⟨String.ofList value, c.skipInlineBlanks.pos⟩ := by
  obtain ⟨read, hread, hpos⟩ := hc.takeWhile Cursor.isInlineBlank
  obtain ⟨inner, after, hvalue, hinner⟩ := directiveValue_stands h hk
  obtain ⟨outer, rest, hline, -, houter, -⟩ := trim_eq c.skipInlineBlanks.line.1
  have hrest := (Cursor.reads_takeWhile c.skipInlineBlanks (· != '\n')).1
  -- Blanks may stand before the value, those of the line and those of what is trimmed off it.
  have hgap : c.skipInlineBlanks.line.1 = (outer ++ inner) ++ (value ++ (after ++ rest)) := by
    rw [hline, hvalue]
    simp only [List.append_assoc]
  refine ⟨read, outer ++ inner, after ++ rest ++ c.skipInlineBlanks.line.2.rest, ?_, hpos, fun x hx => ⟨?_, ?_⟩, fun x hx => ?_⟩
  · rw [String.toList_ofList]
    refine hread.trans (congrArg (read ++ ·) (hrest.trans ?_))
    show c.skipInlineBlanks.line.1 ++ c.skipInlineBlanks.line.2.rest = _
    rw [hgap]
    simp only [List.append_assoc]
  · exact (List.mem_append.mp hx).elim (List.all_eq_true.mp houter x) (List.all_eq_true.mp hinner x)
  · have hmem : x ∈ c.skipInlineBlanks.line.1 := by
      rw [hgap]
      exact List.mem_append_left _ hx
    exact bne_iff_ne.mp (List.all_eq_true.mp List.all_takeWhile x hmem)
  · have hhead : c.skipInlineBlanks.rest.head? = some x := by
      rw [hrest]
      show (c.skipInlineBlanks.line.1 ++ _).head? = _
      rw [hgap, List.head?_append, List.head?_append, Option.mem_def.mp hx]
      rfl
    have hdrop := List.head?_dropWhile_not Cursor.isInlineBlank c.rest
    rw [show c.rest.dropWhile Cursor.isInlineBlank = c.skipInlineBlanks.rest from rfl, hhead] at hdrop
    simpa using hdrop

theorem Directives.From.add? {keyword : String} {d : Directive} (h : ds.From text) (hv : d.value ≠ "")
    (hd : keyword ≠ "layout" → Text.isDottedName d.value.toList = true ∧ d.Stands text) (hp : PlaceIn text d.pos)
    (hadd : ds.add? keyword d = some ds') : ds'.From text := by
  unfold Directives.add? at hadd
  -- One case for each directive: all but the namespaces may be given once.
  split at hadd
  · split at hadd
    · cases hadd
    · cases hadd
      obtain ⟨hdotted, hstands⟩ := hd (by decide)
      refine ⟨?_, h.inherits, h.usings, h.layout, h.functions, h.names, ?_, ?_⟩
      · rintro _ ⟨⟩
        exact hdotted
      · rintro e (he | ⟨⟨⟩⟩ | he)
        · exact h.places e (.inl he)
        · exact hp
        · exact h.places e (.inr (.inr he))
      · rintro e (⟨⟨⟩⟩ | he)
        · exact hstands
        · exact h.stands e (.inr he)
  · split at hadd
    · cases hadd
    · cases hadd
      obtain ⟨hdotted, hstands⟩ := hd (by decide)
      refine ⟨h.model, ?_, h.usings, h.layout, h.functions, h.names, ?_, ?_⟩
      · rintro _ ⟨⟩
        exact hdotted
      · rintro e (he | he | ⟨⟨⟩⟩)
        · exact h.places e (.inl he)
        · exact h.places e (.inr (.inl he))
        · exact hp
      · rintro e (he | ⟨⟨⟩⟩)
        · exact h.stands e (.inl he)
        · exact hstands
  · split at hadd
    · cases hadd
    · cases hadd
      refine ⟨h.model, h.inherits, h.usings, ?_, h.functions, h.names, ?_, h.stands⟩
      · rintro _ ⟨⟩
        exact hv
      · rintro e (⟨⟨⟩⟩ | he)
        · exact hp
        · exact h.places e (.inr he)
  · rename_i hl
    cases hadd
    refine ⟨h.model, h.inherits, fun e he => ?_, h.layout, h.functions, h.names, h.places, h.stands⟩
    rcases List.mem_append.mp he with he | he
    · exact h.usings e he
    · cases List.mem_singleton.mp he
      exact (hd hl).1

theorem lineDirective_from {keyword : String} {pos : SourcePos} (hp : p.From text)
    (h : lineDirective keyword pos block p = .ok p') : p'.From text := by
  obtain ⟨value, ds, hvalue, hds, rfl⟩ := lineDirective_eq_ok h
  refine ⟨((hp.cursor.takeWhile _).takeWhile _).next, hp.directives.add? (ofList_ne_empty (directiveValue_ne_nil hvalue))
    (fun hk => ⟨?_, lineDirective_stands hp.cursor hvalue hk⟩) (place_of_at (hp.cursor.takeWhile _)) hds⟩
  rw [String.toList_ofList]
  exact directiveValue_dotted hvalue hk

theorem paramNames?_isName {cs : List Char} {params : List (List Char)} (h : paramNames? cs = some params) :
    (∀ x ∈ params, Text.isName x = true) ∧ params.Nodup := by
  unfold paramNames? at h
  split at h
  · cases h
    exact ⟨nofun, List.nodup_nil⟩
  · dsimp only at h
    split at h
    · rename_i hall
      cases h
      exact ⟨List.all_eq_true.mp hall.1, hall.2⟩
    · cases h

theorem functionHead?_isName {head name : List Char} {params : List (List Char)}
    (h : functionHead? head = some (name, params)) :
    Text.isName name = true ∧ (∀ x ∈ params, Text.isName x = true) ∧ params.Nodup := by
  unfold functionHead? at h
  dsimp only [bind, Option.bind] at h
  split at h
  · cases h
  · rename_i hok
    split at h
    · cases h
    · rename_i ps hps
      cases h
      exact ⟨by simpa using fun hn => hok (.inr (.inr hn)), paramNames?_isName hps⟩

theorem functionDecl?_proper {piece : Fragment} {f : FunctionDecl} (hp : piece.In text) (hs : Sealed piece.text)
    (h : functionDecl? piece = some f) : f.Proper ∧ f.fragment.CodeIn text := by
  obtain ⟨arrow, harrow, h⟩ := Option.bind_eq_some_iff.mp h
  obtain ⟨⟨name, params⟩, hhead, h⟩ := Option.bind_eq_some_iff.mp h
  dsimp only at h
  split at h
  · cases h
  · rename_i hb
    cases h
    obtain ⟨hname, hparams, hdistinct⟩ := functionHead?_isName hhead
    obtain ⟨hin, hsealed⟩ := hp.behind (isPlain_of_all (by decide)) harrow
    refine ⟨⟨by rwa [String.toList_ofList], ?_, ?_, ?_⟩, ?_⟩
    · intro x hx
      obtain ⟨y, hy, rfl⟩ := List.mem_map.mp hx
      rw [String.toList_ofList]
      exact hparams y hy
    · exact List.Pairwise.map _ (fun _ _ hxy he => hxy (String.ofList_injective he)) hdistinct
    · rw [String.toList_ofList]
      exact (hsealed hs).trim
    · show Fragment.CodeIn text ⟨(String.ofList _).toList, _⟩
      rw [fragment_ofList]
      exact hin.trim hb

theorem Directives.From.addFunction {piece : Fragment} (h : ds.From text) (hp : piece.In text)
    (hs : Sealed piece.text) (hadd : Markup.addFunction ds piece = .ok ds') : ds'.From text := by
  unfold Markup.addFunction at hadd
  split at hadd
  · cases hadd
  · rename_i f hf
    split at hadd
    · cases hadd
    · cases hadd
      rename_i hnew
      refine ⟨h.model, h.inherits, h.usings, h.layout, fun g hg => ?_, ?_, h.places, h.stands⟩
      · rcases List.mem_append.mp hg with hg | hg
        · exact h.functions g hg
        · cases List.mem_singleton.mp hg
          exact functionDecl?_proper hp hs hf
      · rw [List.map_append, List.nodup_append]
        refine ⟨h.names, by simp, fun a ha b hb hab => hnew ?_⟩
        obtain ⟨g, hg, rfl⟩ := List.mem_map.mp ha
        cases List.mem_singleton.mp hb
        exact List.any_eq_true.mpr ⟨g, hg, beq_iff_eq.mpr hab⟩

/-- The statements of a region are code, and no semicolon is left outside brackets and literals. -/
theorem statements_in {inner f : Fragment} {unterminated : Fault} {fs : List Fragment} (hi : inner.In text)
    (h : statements inner unterminated = .ok fs) (hf : f ∈ fs) : f.CodeIn text ∧ Sealed f.text := by
  unfold statements at h
  dsimp only at h
  split at h
  · cases h
    cases hf
  · split at h
    · cases h
      obtain ⟨hmem, hb⟩ := List.mem_filter.mp hf
      obtain ⟨g, hg, rfl⟩ := List.mem_map.mp hmem
      obtain ⟨hat, hclosed, hsealed⟩ := mem_splitStatements hi.stands hi.closed ((List.dropLast_sublist _).subset hg)
      exact ⟨Fragment.In.trim ⟨hat, hclosed⟩ (by simpa using hb), hsealed.trim⟩
    · cases h

theorem functionsBlock_from {pos : SourcePos} (hp : p.From text) (h : functionsBlock pos block p = .ok p') :
    p'.From text := by
  obtain ⟨inner, c, pieces, ds, hinner, hpieces, hds, rfl⟩ := functionsBlock_eq_ok h
  obtain ⟨hin, hc⟩ := balanced_at (hp.cursor.takeWhile _) hinner
  refine ⟨hc.dropBlankLineEnd, foldlM_keeps (P := Directives.From text) ?_ hp.directives hds⟩
  intro ds piece ds' hmem hds hadd
  obtain ⟨hpiece, hsealed⟩ := statements_in hin hpieces hmem
  exact hds.addFunction hpiece.toIn hsealed hadd

end

/-! ### Code blocks -/

section
variable {text : List Char} {block : Block} {p p' : Progress} {top : Bool}

theorem assignment?_in {statement value : Fragment} {target : List Char} (hs : statement.In text)
    (hsealed : Sealed statement.text) (h : assignment? statement = some (target, value)) :
    value.In text ∧ Sealed value.text ∧ Text.trim value.text = value.text := by
  obtain ⟨split, hsplit, h⟩ := Option.bind_eq_some_iff.mp h
  split at h
  · cases h
  · cases h
    obtain ⟨hin, hbehind⟩ := hs.behind (isPlain_of_all (by decide)) hsplit
    exact ⟨⟨hin.stands.trim, hin.closed.trim⟩, (hbehind hsealed).trim, trim_trim _⟩

theorem assignLayout_from {pos : SourcePos} {value : Fragment} {ds ds' : Directives} (hd : ds.From text)
    (hv : value.In text) (h : assignLayout pos value block ds = .ok ds') : ds'.From text := by
  simp only [assignLayout, throw, throwThe, MonadExceptOf.throw] at h
  split at h
  · cases h
  · dsimp only [bind, Except.bind] at h
    split at h
    · cases h
    · split at h
      · cases h
      · rename_i hkey
        split at h
        · cases h
        · cases h
          refine ⟨hd.model, hd.inherits, hd.usings, ?_, hd.functions, hd.names, ?_, hd.stands⟩
          · rintro _ ⟨⟩
            exact ofList_ne_empty fun hnil => hkey (hnil ▸ rfl)
          · rintro e (⟨⟨⟩⟩ | he)
            · exact hv.stands.place
            · exact hd.places e (.inr he)

/-- What holds of the directives and the nodes of a code block. -/
structure CodeFrom (text : List Char) (top : Bool) (acc : Directives × List Node) : Prop where
  directives : acc.1.From text
  nodes : NodesFrom text top acc.2

theorem CodeFrom.statement {acc acc' : Directives × List Node} {statement : Fragment} (ha : CodeFrom text top acc)
    (hs : statement.In text) (hsealed : Sealed statement.text) (h : codeStatement block acc statement = .ok acc') :
    CodeFrom text top acc' := by
  obtain ⟨target, value, hassign, hb, ⟨ds, hds, rfl⟩ | ⟨name, hname, rfl⟩⟩ := codeStatement_eq_ok h
  · exact ⟨assignLayout_from ha.directives (assignment?_in hs hsealed hassign).1 hds, ha.nodes⟩
  · obtain ⟨hv, hvs, hvt⟩ := assignment?_in hs hsealed hassign
    refine ⟨ha.directives, ha.nodes.append (nodesFrom_singleton ⟨⟨?_, ?_⟩, fun f hf => ?_, nofun⟩)⟩
    · rwa [String.toList_ofList]
    · rwa [String.toList_ofList]
    · cases List.mem_singleton.mp hf
      rw [fragment_ofList]
      exact ⟨hv, hvt, by simpa [Fragment.isBlank] using hb⟩

theorem codeBlock_from {pos : SourcePos} {ns : List Node} (hp : p.From text)
    (h : codeBlock pos block p = .ok (ns, p')) : NodesFrom text top ns ∧ p'.From text := by
  obtain ⟨inner, c, pieces, ds, hinner, hpieces, hfold, rfl⟩ := codeBlock_eq_ok h
  obtain ⟨hin, hc⟩ := balanced_at hp.cursor hinner
  have hall := foldlM_keeps (P := CodeFrom text top) (fun acc piece acc' hmem hacc hadd => by
    obtain ⟨hpiece, hsealed⟩ := statements_in hin hpieces hmem
    exact hacc.statement hpiece.toIn hsealed hadd) ⟨hp.directives, nodesFrom_nil⟩ hfold
  refine ⟨hall.nodes, ⟨?_, hall.directives⟩⟩
  show Cursor.At text (if _ then _ else _)
  split
  · exact hc.dropBlankLineEnd
  · exact hc

end

/-! ### Blocks and templates -/

section
variable {text : List Char} {body : BodyReader} {block : Block} {p p' : Progress} {run : TextRun}

/-- Every construct gives nodes that are read from the text. -/
theorem named_from (hbody : BodyFrom text body) {pos : SourcePos} {ns : List Node} (hp : p.From text)
    (hat : p.cursor.BehindAt text) (hstart : p.cursor.nextIs Text.isNameStart = true)
    (h : named body pos block p = .ok (ns, p')) : NodesFrom text block.isTopLevel ns ∧ p'.From text := by
  obtain ⟨after, rfl, hcases⟩ := named_eq_ok h
  have hafter := hp.at_cursor (hp.cursor.takeWhile Text.isNameChar)
  rcases hcases with ⟨n, rfl, hn | hn | hn⟩ | ⟨rfl, hq | ⟨keyword, hq⟩⟩ | ⟨n, c, rfl, hn, rfl⟩
  · exact ifBlock_from hbody hafter hn
  · exact forEachBlock_from hbody hafter hn
  · exact sectionBlock_from hbody hafter hn
  · exact ⟨nodesFrom_nil, functionsBlock_from hafter hq⟩
  · exact ⟨nodesFrom_nil, lineDirective_from hafter hq⟩
  · obtain ⟨hfrom, hc⟩ := implicitExpression_from hat hstart hn
    exact ⟨hfrom, hp.at_cursor hc⟩

theorem atSign_from (hbody : BodyFrom text body) {ns : List Node} (hp : p.From text) (hat : p.cursor.peek? = some '@')
    (h : atSign body block run p = .ok (.code ns p')) : NodesFrom text block.isTopLevel ns ∧ p'.From text := by
  have hnext := hp.at_cursor hp.cursor.next
  have hbehind := hp.cursor.behindAt hat
  rcases atSign_eq_ok h with ⟨_, _, -, hc | hc⟩ | ⟨n, c, hopen, hn, hc⟩ | ⟨ms, q, hns, hc⟩ | ⟨ms, q, hstart, hns, hc⟩
  · cases hc
  · cases hc
  · cases hc
    obtain ⟨hfrom, hc⟩ := explicitExpression_from hbehind hopen hn
    exact ⟨hfrom, hp.at_cursor hc⟩
  · cases hc
    exact codeBlock_from hnext hns
  · cases hc
    exact named_from hbody hnext hbehind hstart hns

theorem TextRun.nodes_from (run : TextRun) (top : Bool) : NodesFrom text top run.nodes := by
  unfold TextRun.nodes
  split
  · exact nodesFrom_nil
  · exact nodesFrom_singleton ⟨trivial, nofun, nofun⟩

theorem blockNodes_from {fuel depth : Nat} {done ns : List Node} (hp : p.From text)
    (hd : NodesFrom text block.isTopLevel done) (h : blockNodes fuel block depth run done p = .ok (ns, p')) :
    NodesFrom text block.isTopLevel ns ∧ p'.From text := by
  induction fuel generalizing block depth run done p ns p' with
  | zero => cases h
  | succ fuel ih =>
    have hbody : BodyFrom text (bodyReader fuel) := by
      intro b q ns q' hb hns hq
      rw [← hb]
      exact ih hq nodesFrom_nil hns
    rcases blockNodes_eq_ok h with ⟨c, r, hc, rfl, rfl⟩ | ⟨c, r, depth', run', hc, h⟩ | ⟨ms, q, hat, hms, h⟩
    · exact ⟨hd.reverse.append (run.nodes_from _), hp.at_cursor (hp.cursor.reads hc)⟩
    · exact ih (hp.at_cursor (hp.cursor.reads hc)) hd h
    · obtain ⟨hfrom, hq⟩ := atSign_from hbody hp hat hms
      exact ih hq ((hfrom.reverse.append (run.nodes_from _).reverse).append hd) h

end

/-- Every document that is read from a text is one that the text embeds. -/
theorem parse_from {template text : String} {d : Document} (h : parse template text = .ok d) : d.From text.toList := by
  have h := eq_ok_of_mapError h
  obtain ⟨⟨ns, p⟩, hns, h⟩ := Except.bind_eq_ok.mp h
  cases h
  have hdirectives : Directives.From text.toList {} :=
    ⟨nofun, nofun, nofun, nofun, nofun, List.nodup_nil, nofun, nofun⟩
  obtain ⟨hnodes, hp⟩ := blockNodes_from ⟨Cursor.at_ofText _, hdirectives⟩ nodesFrom_nil hns
  exact ⟨hnodes, hp.directives⟩

end Markup

end Stencil
