import Stencil.Proofs.Lookup
import Stencil.Proofs.Markup.Documents
import Stencil.Proofs.Unit.Lines
import Stencil.SourceMap

/-! The source map of a unit is exact on the first line of each piece of embedded code.

A pragma gives the place of the code on the line after it and the column at which the code starts. So a character of
the code is as far from the start of the code in the unit as it is in the template, up to the first line break. -/

namespace Stencil

/-! ### Places on a line -/

namespace SourcePos

theorem after_of_not_mem {cs : List Char} (h : '\n' ∉ cs) (p : SourcePos) :
    p.after cs = ⟨p.line, p.column + cs.length⟩ := by
  induction cs generalizing p with
  | nil => rfl
  | cons c cs ih =>
    rw [List.mem_cons, not_or] at h
    rw [after_cons, ih h.2, next_of_ne p (Ne.symm h.1), List.length_cons, Nat.add_comm cs.length, ← Nat.add_assoc]

theorem after_newline (cs : List Char) (p : SourcePos) :
    p.after (cs ++ ['\n']) = ⟨p.line + (Text.fields '\n' cs).length, 1⟩ := by
  induction cs generalizing p with
  | nil => rfl
  | cons c cs ih =>
    rw [List.cons_append, after_cons, ih, Text.fields]
    by_cases hc : c = '\n'
    · rw [hc, next_newline, if_pos rfl, List.length_cons, Nat.add_comm (Text.fields _ _).length, ← Nat.add_assoc]
    · obtain ⟨piece, pieces, hp⟩ := List.exists_cons_of_ne_nil (Text.fields_ne_nil '\n' cs)
      rw [next_of_ne p hc, if_neg hc, hp]
      rfl

theorem after_le (cs : List Char) (p : SourcePos) :
    (p.after cs).line ≤ p.line + cs.length ∧ (p.after cs).column ≤ max 1 p.column + cs.length := by
  induction cs generalizing p with
  | nil =>
    rw [after_nil, List.length_nil]
    omega
  | cons c cs ih =>
    have h := ih (p.next c)
    rw [after_cons, List.length_cons]
    by_cases hc : c = '\n'
    · rw [hc, next_newline] at h ⊢
      simp only at h
      omega
    · rw [next_of_ne p hc] at h ⊢
      simp only at h
      omega

end SourcePos

/-! ### The mapped lines of a text -/

namespace SourceMap

theorem entriesFrom_append (n : Nat) (xs ys : List (List Char)) :
    entriesFrom n (xs ++ ys) = entriesFrom n xs ++ entriesFrom (n + xs.length) ys := by
  induction xs generalizing n with
  | nil => rfl
  | cons x xs ih =>
    rw [List.cons_append, entriesFrom, entriesFrom, ih, List.length_cons,
      show n + 1 + xs.length = n + (xs.length + 1) by omega]
    split <;> rfl

theorem line_of_mem_entriesFrom {n : Nat} {xs : List (List Char)} {e : Mapping} (h : e ∈ entriesFrom n xs) :
    e.line ≤ n + xs.length := by
  induction xs generalizing n with
  | nil => cases h
  | cons x xs ih =>
    rw [List.length_cons]
    unfold entriesFrom at h
    split at h
    · rcases List.mem_cons.mp h with rfl | h
      · exact Nat.add_le_add_left (by omega) n
      · have := ih h
        omega
    · have := ih h
      omega

/-- On the line after a pragma, the distance to the pragma's column is carried over. -/
theorem map?_after_pragma {source : String} {xs ys : List (List Char)} {line : List Char} {p : Unit.Pragma}
    (hs : Text.fields '\n' source.toList = xs ++ line :: ys) (hp : Unit.Pragma.ofLine? line = some p) (column : Nat) :
    (ofSource source).map? ⟨xs.length + 2, column⟩ =
      some ⟨p.template.line, p.template.column + (column - p.column)⟩ := by
  have hfind : (ofSource source).entries.find? (·.line == xs.length + 2) = some ⟨xs.length + 2, p⟩ := by
    have hbefore : (entriesFrom 1 xs).find? (·.line == xs.length + 2) = none := by
      refine List.find?_eq_none.mpr fun e he => ?_
      have := line_of_mem_entriesFrom he
      simp only [beq_iff_eq]
      omega
    show (entriesFrom 1 (Text.fields '\n' source.toList)).find? _ = _
    rw [hs, entriesFrom_append, List.find?_append, hbefore, Option.none_or, entriesFrom, hp,
      show 1 + xs.length + 1 = xs.length + 2 by omega]
    exact List.find?_cons_of_pos (by simp)
  rw [map?, hfind]

end SourceMap

namespace Unit

open Markup (Node Fragment Document)

namespace Line

/-- The lines end where a line starts. -/
theorem chars_place (ls : List Line) : ∃ xs : List (List Char), SourcePos.start.after (chars ls) = ⟨xs.length + 1, 1⟩ ∧
    ∀ cs, Text.fields '\n' (chars ls ++ cs) = xs ++ Text.fields '\n' cs := by
  rcases List.eq_nil_or_concat ls with rfl | ⟨ms, l, rfl⟩
  · exact ⟨[], rfl, fun _ => rfl⟩
  · have hend : chars (ms.concat l) = (chars ms ++ l.text.toList) ++ ['\n'] := by
      rw [List.concat_eq_append, chars_append, chars_cons, List.append_assoc]
      rfl
    refine ⟨Text.fields '\n' (chars ms ++ l.text.toList), ?_, fun cs => ?_⟩
    · rw [hend, SourcePos.after_newline]
      exact congrArg (SourcePos.mk · 1) (Nat.add_comm _ _)
    · rw [hend, List.append_assoc _ ['\n'], List.singleton_append, Text.fields_append]

/-- The lines write the code of a fragment, on the line after its pragma; `pre` stands before the code, and `post`
after it. -/
def Writes (lines : List Line) (f : Fragment) (pre post : List Char) : Prop :=
  ∃ ls depth before after rs, '\n' ∉ before.toList ∧
    lines = ls ++ mapped depth (some f.start) before (String.ofList f.text) after ++ rs ∧
    pre = chars (ls ++ [pragma ⟨f.start, depth * indentWidth + before.length + 1⟩]) ++ indent depth ++ before.toList ∧
    post = after.toList ++ '\n' :: chars rs

section
variable {lines ls rs : List Line} {f : Fragment} {pre post : List Char}

theorem writes_mapped (depth : Nat) (before code after : String) (pos : SourcePos) (hb : '\n' ∉ before.toList) :
    ∃ pre post, Writes (mapped depth (some pos) before code after) ⟨code.toList, pos⟩ pre post :=
  ⟨_, _, [], depth, before, after, [], hb, by simp, rfl, rfl⟩

theorem Writes.around (h : ∃ pre post, Writes lines f pre post) (ls rs : List Line) :
    ∃ pre post, Writes (ls ++ lines ++ rs) f pre post := by
  obtain ⟨_, _, ls', depth, before, after, rs', hb, rfl, -, -⟩ := h
  exact ⟨_, _, ls ++ ls', depth, before, after, rs' ++ rs, hb, by simp only [List.append_assoc], rfl, rfl⟩

theorem Writes.left (h : ∃ pre post, Writes lines f pre post) (rs : List Line) :
    ∃ pre post, Writes (lines ++ rs) f pre post := Writes.around h [] rs

theorem Writes.right (h : ∃ pre post, Writes lines f pre post) (ls : List Line) :
    ∃ pre post, Writes (ls ++ lines) f pre post := by
  have := Writes.around h ls []
  rwa [List.append_nil] at this

/-- The text of lines that write a fragment has its code on one line. -/
theorem Writes.chars_eq (h : Writes lines f pre post) : chars lines = pre ++ f.text.map oneLine ++ post := by
  obtain ⟨ls, depth, before, after, rs, -, rfl, rfl, rfl⟩ := h
  simp only [mapped, chars_append, chars_cons, chars_nil, toList_code, String.toList_append, toList_singleLine,
    String.toList_ofList, List.append_assoc, List.cons_append, List.nil_append]

theorem map_oneLine_of_not_mem (cs : List Char) : '\n' ∉ cs.map oneLine := by
  intro h
  obtain ⟨c, -, hc⟩ := List.mem_map.mp h
  exact oneLine_ne_newline c hc

/-- The line after a pragma, and what stands at its front. -/
theorem after_pragma (ls : List Line) (p : Pragma) : ∃ xs : List (List Char),
    (∀ cs, '\n' ∉ cs → SourcePos.start.after (chars (ls ++ [pragma p]) ++ cs) = ⟨xs.length + 2, cs.length + 1⟩) ∧
    ∀ cs, Text.fields '\n' (chars (ls ++ [pragma p]) ++ cs) = xs ++ p.text.toList :: Text.fields '\n' cs := by
  obtain ⟨xs, hplace, hfields⟩ := chars_place ls
  have hpragma := p.not_mem_newline
  have hchars : ∀ cs, chars (ls ++ [pragma p]) ++ cs = chars ls ++ (p.text.toList ++ '\n' :: cs) := by
    intro cs
    rw [chars_append, chars_cons, chars_nil, List.append_assoc, List.append_assoc]
    rfl
  refine ⟨xs, fun cs hcs => ?_, fun cs => ?_⟩
  · rw [hchars, SourcePos.after_append, hplace, SourcePos.after_append, SourcePos.after_of_not_mem hpragma,
      SourcePos.after_cons, SourcePos.next_newline, SourcePos.after_of_not_mem hcs]
    exact congrArg (SourcePos.mk _) (Nat.add_comm _ _)
  · rw [hchars, hfields, Text.fields_append, Text.fields_of_not_mem hpragma]
    rfl

/-- A character on the first line of a written fragment maps to its place in the template. -/
theorem Writes.map? (h : Writes lines f pre post) {source : String} (hs : source.toList = chars lines)
    (hline : f.start.line ≤ Text.maxCount) (hcolumn : f.start.column ≤ Text.maxCount)
    (hlength : source.length ≤ Text.maxCount) {first : List Char} (hfirst : '\n' ∉ first) :
    (SourceMap.ofSource source).map? (SourcePos.start.after (pre ++ first.map oneLine)) =
      some (f.start.after first) := by
  have hchars := h.chars_eq
  obtain ⟨ls, depth, before, after, rs, hb, -, rfl, rfl⟩ := h
  obtain ⟨xs, hplace, hfields⟩ := after_pragma ls ⟨f.start, depth * indentWidth + before.length + 1⟩
  have hindent : (indent depth ++ before.toList).length = depth * indentWidth + before.length := by
    rw [List.length_append, String.length_toList, indent, List.length_replicate]
  -- The column of the code is at most the length of the text.
  have hg : depth * indentWidth + before.length + 1 ≤ Text.maxCount := by
    refine Nat.le_trans ?_ hlength
    rw [← hindent, ← String.length_toList (s := source), hs, hchars]
    simp only [List.length_append, List.length_cons]
    omega
  have hread := Pragma.ofLine?_text (p := ⟨f.start, depth * indentWidth + before.length + 1⟩) hline hcolumn hg
  have hcode : '\n' ∉ indent depth ++ before.toList ++ first.map oneLine := by
    rw [List.mem_append, List.mem_append, not_or, not_or]
    exact ⟨⟨fun hi => absurd (List.eq_of_mem_replicate hi) (by decide), hb⟩, map_oneLine_of_not_mem first⟩
  have hsource := hfields (indent depth ++ before.toList ++ (f.text.map oneLine ++ (after.toList ++ '\n' :: chars rs)))
  have hpos := hplace _ hcode
  simp only [List.append_assoc] at hsource hpos hchars ⊢
  rw [← hchars, ← hs] at hsource
  have hdistance : (indent depth ++ (before.toList ++ first.map oneLine)).length + 1 -
      (depth * indentWidth + before.length + 1) = first.length := by
    rw [← List.append_assoc, List.length_append, hindent, List.length_map, Nat.add_right_comm, Nat.add_sub_cancel_left]
  rw [hpos, SourceMap.map?_after_pragma hsource hread, hdistance, SourcePos.after_of_not_mem hfirst]

end

end Line

/-! ### Every fragment of a document is written -/

theorem not_mem_newline_of_isName {name : String} (h : Text.isName name.toList = true) : '\n' ∉ name.toList := by
  intro hn
  cases hs : name.toList with
  | nil =>
    rw [hs] at hn
    cases hn
  | cons c cs =>
    rw [hs] at h hn
    simp only [Text.isName, Bool.and_eq_true] at h
    rcases List.mem_cons.mp hn with rfl | hn
    · exact absurd h.1 (by decide)
    · exact absurd (List.all_eq_true.mp h.2 _ hn) (by decide)

open Line (Writes)

mutual

theorem node_writes {depth : Nat} {f : Fragment} :
    (n : Node) → n.Proper false → f ∈ n.fragments → ∃ pre post, Writes (nodeLines depth n) f pre post
  | .text _ _, _, hf => nomatch hf
  | .expr code pos, _, hf => by
    cases List.mem_singleton.mp hf
    exact Line.writes_mapped depth "emit " code ";" pos (by decide)
  | .var name code pos, hp, hf => by
    cases List.mem_singleton.mp hf
    refine Line.writes_mapped depth s!"var {name} = " code ";" pos ?_
    simpa [toString, String.toList_append] using not_mem_newline_of_isName hp.1
  | .ifElse branches none, hp, hf => by
    rw [nodeLines]
    exact Writes.left (branches_write "if (" (by decide) branches hp.2 hf) _
  | .ifElse branches (some body), hp, hf => by
    rw [nodeLines]
    rcases List.mem_append.mp hf with hf | hf
    · exact Writes.left (branches_write "if (" (by decide) branches hp.2.1 hf) _
    · exact Writes.right (Writes.around (nodes_write body hp.2.2 hf) [.code depth "else", .code depth "\x7b"] _) _
  | .forEach var source pos body, hp, hf => by
    rw [nodeLines]
    rcases List.mem_cons.mp hf with rfl | hf
    · refine Writes.left (Line.writes_mapped depth s!"foreach (var {var} in " source ")" pos ?_) _
      simpa [toString, String.toList_append] using not_mem_newline_of_isName hp.1
    · exact Writes.right (Writes.around (nodes_write body hp.2 hf) [.code depth "\x7b"] _) _
  | .sectionDef _ _ _, hp, _ => nomatch hp.1

theorem nodes_write {depth : Nat} {f : Fragment} :
    (ns : List Node) → Node.ProperAll false ns → f ∈ Node.fragmentsAll ns →
      ∃ pre post, Writes (nodeListLines depth ns) f pre post
  | [], _, hf => nomatch hf
  | n :: ns, hp, hf => by
    rw [nodeListLines]
    rcases List.mem_append.mp hf with hf | hf
    · exact Writes.left (node_writes n hp.1 hf) _
    · exact Writes.right (nodes_write ns hp.2 hf) _

theorem branches_write {depth : Nat} {f : Fragment} (start : String) (hs : '\n' ∉ start.toList) :
    (bs : List Markup.Branch) → Markup.Branch.ProperAll bs → f ∈ Markup.Branch.fragmentsAll bs →
      ∃ pre post, Writes (branchLines depth start bs) f pre post
  | [], _, hf => nomatch hf
  | .mk cond pos body :: bs, hp, hf => by
    rw [branchLines]
    rcases List.mem_cons.mp hf with rfl | hf
    · exact Writes.left (Writes.left (Line.writes_mapped depth start cond ")" pos hs) _) _
    · rcases List.mem_append.mp hf with hf | hf
      · exact Writes.left (Writes.right (Writes.around (nodes_write body hp.1 hf) [.code depth "\x7b"] _) _) _
      · exact Writes.right (branches_write "else if (" (by decide) bs hp.2 hf) _

end

/-- What a generated unit is made from. -/
theorem generate_eq_ok {g : Generator} {source : TemplateSource} {imports : List TemplateSource} {context : TypeContext}
    {u : Generated} (h : g.generate source imports context = .ok u) :
    ∃ imported d, Imported.ofFiles imports = .ok imported ∧ Markup.parse source.key source.content = .ok d ∧
      u.source = Line.render (Line.select g.pragmas (unitLines source.key g.baseTypes context
        (Declared.merge imported d.directives) d.nodes)) := by
  obtain ⟨imported, himported, h⟩ := Except.bind_eq_ok.mp h
  obtain ⟨d, hd, h⟩ := Except.bind_eq_ok.mp h
  cases h
  exact ⟨imported, d, himported, hd, rfl⟩

/-- A text has at most as many characters as bytes. -/
theorem length_le_utf8ByteSize (s : String) : s.length ≤ s.utf8ByteSize := by
  induction s using String.push_induction with
  | empty => exact Nat.zero_le _
  | push s c ih =>
    rw [String.length_push, String.utf8ByteSize_push]
    exact Nat.add_le_add ih c.utf8Size_pos

/-- A page that writes a member of its model after a line of text. -/
def memberPage : TemplateSource := ⟨"page", "Hi\n  @(Model.Name)", none⟩

/-- The class that the page becomes. -/
def memberPageContext : TypeContext := { className := ⟨"Page", by decide⟩ }

theorem memberPage_generates :
    ((({} : Generator).generate memberPage [] memberPageContext).toOption.any fun u =>
      decide (u.source.utf8ByteSize ≤ Text.maxCount)) = true ∧
    ((Markup.parse memberPage.key memberPage.content).toOption.any fun d =>
      decide (d.fragments.map (·.text) = ["Model.Name".toList])) = true := by
  decide +kernel

end Unit

end Stencil
