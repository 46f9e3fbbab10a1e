import Stencil.Proofs.Unit.Nesting

/-! A generated unit says what its template says.

Code that is an expression on its own is the same expression in a unit. So if all the code of a template and of the
files it imports is, the unit that is generated from them is read as the tree that mirrors the template. -/

namespace Stencil.Unit

open Markup (Node Fragment Document)

/-! ### Code that is an expression on its own -/

/-- The code, read on its own, is one expression: this one, up to places. -/
def Spelled (code : List Char) (e : Expr) : Prop :=
  ∃ ls e', lexemes code = .ok ls ∧ expr (ls.length + 1) ⟨ls, finishOf ls, none⟩ = .ok (e', ⟨[], finishOf ls, none⟩) ∧
    e.erasePlaces = e'.erasePlaces

/-- The code, read on its own, meets no comment and is one expression. -/
structure StandsAlone (f : Fragment) : Prop where
  comment : hasComment .code f.text = false
  spelled : ∃ e, Spelled f.text e

theorem Spelled.isExpr {code : List Char} {e : Expr} (h : Spelled code e) :
    ∃ ls e', tokens? true code = some (ls.map (·.token)) ∧ Grammar.IsExpr .either ls e' ∧
      ∀ e'', e''.erasePlaces = e'.erasePlaces → Spelled code e'' := by
  obtain ⟨ls, e', hls, hexpr, -⟩ := h
  obtain ⟨us, htakes, hus⟩ := spells_expr _ _ _ _ hexpr
  have hall : ls = us := by
    have : ls = us ++ [] := congrArg Input.lexemes htakes
    rwa [List.append_nil] at this
  exact ⟨ls, e', lexemes_eq_ok hls, hall ▸ hus, fun e'' he => ⟨ls, e', hls, hexpr, he⟩⟩

/-- The code gives the same tokens in a unit, and they are an expression. -/
theorem StandsAlone.tokens {f : Fragment} (h : StandsAlone f) :
    ∃ ls e', tokens? false (f.text.map Line.oneLine) = some (ls.map (·.token)) ∧ Grammar.IsExpr .either ls e' ∧
      ∀ e'', e''.erasePlaces = e'.erasePlaces → Spelled f.text e'' := by
  obtain ⟨e, he⟩ := h.spelled
  obtain ⟨ls, e', htokens, hls, hsame⟩ := he.isExpr
  have hnest : nest true [] ls = some [] := hls.nest []
  have hpragma : ∀ p, Token.pragma p ∉ ls.map (·.token) := by
    intro p hp
    obtain ⟨l, hl, hlp⟩ := List.mem_map.mp hp
    exact not_pragma_of_nest hnest l hl p hlp
  exact ⟨ls, e', tokens?_oneLine htokens h.comment hpragma, hls, hsame⟩

/-- What is an expression on its own is the same expression in a unit. -/
theorem StandsAlone.yields {f : Fragment} (h : StandsAlone f) : Yields Spelled f := by
  obtain ⟨ls, e', hline, hls, hsame⟩ := h.tokens
  intro ls' hcut
  have hsamelist : SameTokens ls' ls := Option.some.inj (hcut.symm.trans hline)
  obtain ⟨e'', hls', he''⟩ := hls.relocate hsamelist
  exact ⟨e'', hls', hsame e'' he''⟩

/-! ### What is declared -/

/-- The names that a unit takes from its context are names joined by dots. -/
structure Dotted (bases : List BaseType) (context : TypeContext) : Prop where
  base : Text.isDottedName context.baseType.name.toList = true
  model : Text.isDottedName context.modelType.name.toList = true
  namespaces : ∀ s ∈ context.namespaces, Text.isDottedName s.toList = true
  required : ∀ b ∈ context.baseType :: bases, ∀ s ∈ b.requiredNamespaces, Text.isDottedName s.toList = true

/-- What holds of the declarations of import files: their names are names and their code is closed, and they have no
places in the template. -/
structure Imported.Proper (m : Imported) : Prop where
  usings : ∀ s ∈ m.usings, Text.isDottedName s.toList = true
  model : ∀ n ∈ m.model, Text.isDottedName n.value.toList = true ∧ n.pos = none
  inherits : ∀ n ∈ m.inherits, Text.isDottedName n.value.toList = true ∧ n.pos = none
  layout : ∀ n ∈ m.layout, n.pos = none
  functions : ∀ f ∈ m.functions, f.Proper ∧ Markup.Closed f.code.toList

section
variable {m : Imported} {ds : Markup.Directives} {text : List Char} {P : Merged → Prop} {p q : Option Merged}

theorem forall_or (hp : ∀ n ∈ p, P n) (hq : ∀ n ∈ q, P n) : ∀ n ∈ p.or q, P n := by
  cases p with
  | none => exact hq
  | some n => exact hp

theorem forall_map {d : Option Markup.Directive} {f : Markup.Directive → Merged} (h : ∀ e ∈ d, P (f e)) :
    ∀ n ∈ d.map f, P n := by
  cases d with
  | none => exact fun _ h => nomatch h
  | some e =>
    rintro _ ⟨⟩
    exact h e rfl

theorem forall_usings (hm : ∀ s ∈ m.usings, Text.isDottedName s.toList = true)
    (hd : ∀ d ∈ ds.usings, Text.isDottedName d.value.toList = true) :
    ∀ s ∈ m.usings ++ ds.usings.map (·.value), Text.isDottedName s.toList = true := by
  intro s hs
  rcases List.mem_append.mp hs with hs | hs
  · exact hm s hs
  · obtain ⟨d, hmem, rfl⟩ := List.mem_map.mp hs
    exact hd d hmem

theorem mem_replaced {fs gs : List Markup.FunctionDecl} {f : Markup.FunctionDecl}
    (h : f ∈ fs.foldl (fun gs f => gs.filter (·.name != f.name) ++ [f]) gs) : f ∈ gs ∨ f ∈ fs := by
  induction fs generalizing gs with
  | nil => exact .inl h
  | cons g fs ih =>
    rcases ih h with h | h
    · rcases List.mem_append.mp h with h | h
      · exact .inl (List.mem_filter.mp h).1
      · exact .inr (List.mem_singleton.mp h ▸ List.mem_cons_self)
    · exact .inr (List.mem_cons_of_mem _ h)

theorem Imported.Proper.add (h : m.Proper) (hd : ds.From text) : (m.add ds).Proper where
  usings := forall_usings h.usings hd.usings
  model := forall_or (forall_map fun d hmem => ⟨hd.model d hmem, rfl⟩) h.model
  inherits := forall_or (forall_map fun d hmem => ⟨hd.inherits d hmem, rfl⟩) h.inherits
  layout := forall_or (forall_map fun _ _ => rfl) h.layout
  functions f hf := by
    rcases mem_replaced hf with hf | hf
    · exact h.functions f hf
    · exact ⟨(hd.functions f hf).1, (hd.functions f hf).2.closed⟩

theorem Imported.proper_ofFiles {files : List TemplateSource} (h : Imported.ofFiles files = .ok m) : m.Proper := by
  refine Markup.foldlM_keeps (fun m file m' _ hm hadd => ?_) ?_ h
  · obtain ⟨d, hd, hadd⟩ := Except.bind_eq_ok.mp hadd
    cases hadd
    exact hm.add (Markup.parse_from hd).directives
  · exact ⟨fun _ h => (nomatch h), fun _ h => (nomatch h), fun _ h => (nomatch h), fun _ h => (nomatch h),
      fun _ h => (nomatch h)⟩

end

/-- The embedded code of a unit. -/
def unitFragments (d : Declared) (nodes : List Node) : List Fragment :=
  (d.importedFunctions ++ d.ownFunctions).map (·.fragment) ++ Node.fragmentsAll nodes

section
variable {d : Declared} {nodes : List Node} {f : Fragment} {p : Part}

theorem fragments_subset_of_mem {n : Node} (h : n ∈ nodes) : n.fragments ⊆ Node.fragmentsAll nodes := by
  induction nodes with
  | nil => cases h
  | cons m ms ih =>
    rcases List.mem_cons.mp h with rfl | h
    · exact List.subset_append_left _ _
    · exact List.subset_append_of_subset_right _ (ih h)

theorem proper_of_mem {n : Node} {top : Bool} (hp : Node.ProperAll top nodes) (h : n ∈ nodes) : n.Proper top := by
  induction nodes with
  | nil => cases h
  | cons m ms ih =>
    rcases List.mem_cons.mp h with rfl | h
    · exact hp.1
    · exact ih hp.2 h

theorem sectionPart?_eq_some {n : Node} (h : sectionPart? n = some p) :
    ∃ name pos body, n = .sectionDef name pos body ∧ p = .sectionDef name body := by
  cases n with
  | sectionDef name pos body => exact ⟨name, pos, body, rfl, (Option.some.inj h).symm⟩
  | text | expr | var | ifElse | forEach => cases h

/-- The members that are declared, one kind after another. -/
theorem mem_parts (h : p ∈ parts d nodes) :
    (∃ l ∈ d.layout, p = .layout l.pos d.layoutInherited l.value) ∨ (∃ f ∈ d.importedFunctions, p = .function false f) ∨
      (∃ f ∈ d.ownFunctions, p = .function true f) ∨
      (∃ name pos body, .sectionDef name pos body ∈ nodes ∧ p = .sectionDef name body) ∨ p = .execute nodes := by
  rw [parts, List.mem_append, List.mem_append, List.mem_append, List.mem_append] at h
  rcases h with h | h | h | h | h
  · obtain ⟨l, hl, rfl⟩ := Option.map_eq_some_iff.mp (Option.mem_toList.mp h)
    exact .inl ⟨l, hl, rfl⟩
  · obtain ⟨f, hf, rfl⟩ := List.mem_map.mp h
    exact .inr (.inl ⟨f, hf, rfl⟩)
  · obtain ⟨f, hf, rfl⟩ := List.mem_map.mp h
    exact .inr (.inr (.inl ⟨f, hf, rfl⟩))
  · obtain ⟨n, hn, hp⟩ := List.mem_filterMap.mp h
    obtain ⟨name, pos, body, rfl, rfl⟩ := sectionPart?_eq_some hp
    exact .inr (.inr (.inr (.inl ⟨name, pos, body, hn, rfl⟩)))
  · exact .inr (.inr (.inr (.inr (List.mem_singleton.mp h))))

theorem parts_proper (hp : Node.ProperAll true nodes) (h : p ∈ parts d nodes) : p.Proper := by
  rcases mem_parts h with ⟨l, -, rfl⟩ | ⟨f, -, rfl⟩ | ⟨f, -, rfl⟩ | ⟨name, pos, body, hmem, rfl⟩ | rfl
  · trivial
  · trivial
  · trivial
  · exact (proper_of_mem hp hmem).2.2
  · exact hp

theorem parts_fragments (h : p ∈ parts d nodes) (hf : f ∈ p.fragments) : f ∈ unitFragments d nodes := by
  rw [unitFragments, List.map_append, List.mem_append, List.mem_append]
  rcases mem_parts h with ⟨l, -, rfl⟩ | ⟨g, hg, rfl⟩ | ⟨g, hg, rfl⟩ | ⟨name, pos, body, hmem, rfl⟩ | rfl
  · cases hf
  · cases List.mem_singleton.mp hf
    exact .inl (.inl (List.mem_map_of_mem hg))
  · cases List.mem_singleton.mp hf
    exact .inl (.inr (List.mem_map_of_mem hg))
  · exact .inr (fragments_subset_of_mem hmem hf)
  · exact .inr (codeOfAll_subset _ hf)

end

/-! ### The text of a unit can be read -/

theorem readable_of_placeIn {text : List Char} {pos : SourcePos} (h : Markup.PlaceIn text pos)
    (hlength : text.length < Text.maxCount) : Readable pos := by
  obtain ⟨before, hprefix, rfl⟩ := h
  obtain ⟨hline, hcolumn⟩ := SourcePos.after_le before .start
  have hle := hprefix.length_le
  have hstart : SourcePos.start.line = 1 ∧ SourcePos.start.column = 1 := ⟨rfl, rfl⟩
  constructor <;> omega

section
variable {bases : List BaseType} {context : TypeContext} {m : Imported} {d : Document} {text : List Char}

theorem namespaces_dotted (hc : Dotted bases context) {s : String} {used : Declared}
    (hu : ∀ s ∈ used.usings, Text.isDottedName s.toList = true) (h : s ∈ usedNamespaces bases context used) :
    Text.isDottedName s.toList = true := by
  have hbase : ∀ b : Option BaseType, (∀ x ∈ b, x ∈ context.baseType :: bases) →
      ∀ s ∈ (b.map (·.requiredNamespaces)).getD [], Text.isDottedName s.toList = true := by
    intro b hb s hs
    cases b with
    | none => cases hs
    | some x => exact hc.required x (hb x rfl) s hs
  rcases List.mem_append.mp (Text.mem_sortedSet.mp h) with h | h
  · rcases List.mem_append.mp h with h | h
    · refine hbase _ (fun x hx => ?_) s h
      cases hi : used.inherits with
      | none =>
        rw [hi] at hx
        cases hx
        exact List.mem_cons_self
      | some n =>
        rw [hi] at hx
        exact List.mem_cons_of_mem _ (List.mem_of_find?_eq_some hx)
    · exact hc.namespaces s h
  · exact hu s h

theorem unit_ready (hc : Dotted bases context) (hm : m.Proper) (hd : d.From text) (hlength : text.length < Text.maxCount)
    (hcomment : ∀ f ∈ unitFragments (Declared.merge m d.directives) d.nodes, hasComment .code f.text = false) :
    UnitReady bases context (Declared.merge m d.directives) d.nodes := by
  have hcode : ∀ f ∈ unitFragments (Declared.merge m d.directives) d.nodes, Markup.Closed f.text →
      Tidy (f.text.map Line.oneLine) := fun f hf hclosed => tidy_oneLine hclosed (hcomment f hf)
  have hready : ∀ f ∈ unitFragments (Declared.merge m d.directives) d.nodes, f.In text → Ready f := fun f hf hin =>
    ⟨hcode f hf hin.closed, readable_of_placeIn hin.stands.place hlength⟩
  have hplace : ∀ e, e ∈ d.directives.layout ∨ e ∈ d.directives.model ∨ e ∈ d.directives.inherits →
      ∀ p ∈ some e.pos, Readable p := by
    rintro e he _ ⟨⟩
    exact readable_of_placeIn (hd.directives.places e he) hlength
  have hinherits : ∀ n ∈ (Declared.merge m d.directives).inherits,
      Text.isDottedName n.value.toList = true ∧ ∀ p ∈ n.pos, Readable p :=
    forall_or (forall_map fun e he => ⟨hd.directives.inherits e he, hplace e (.inr (.inr he))⟩)
      fun n hn => ⟨(hm.inherits n hn).1, by simp [(hm.inherits n hn).2]⟩
  have hmodel : ∀ n ∈ (Declared.merge m d.directives).model,
      Text.isDottedName n.value.toList = true ∧ ∀ p ∈ n.pos, Readable p :=
    forall_or (forall_map fun e he => ⟨hd.directives.model e he, hplace e (.inr (.inl he))⟩)
      fun n hn => ⟨(hm.model n hn).1, by simp [(hm.model n hn).2]⟩
  have hname : ∀ (n : Option Merged) (s : String), (∀ x ∈ n, Text.isDottedName x.value.toList = true) →
      Text.isDottedName s.toList = true → Text.isDottedName ((n.map (·.value)).getD s).toList = true := by
    intro n s hn hs
    cases n with
    | none => exact hs
    | some x => exact hn x rfl
  refine ⟨fun s hs => namespaces_dotted hc (forall_usings hm.usings hd.directives.usings) hs,
    hname _ _ (fun n hn => (hinherits n hn).1) hc.base, hname _ _ (fun n hn => (hmodel n hn).1) hc.model, ?_,
    forall_or (forall_map fun e he => hplace e (.inl he)) fun n hn => by simp [hm.layout n hn], ?_, ?_, hd.nodes.proper, ?_⟩
  · -- The header is mapped to the base type's place, or else to the model's.
    intro p hp
    rcases Option.or_eq_some_iff.mp hp with hp | ⟨-, hp⟩
    · obtain ⟨n, hn, hpos⟩ := Option.bind_eq_some_iff.mp hp
      exact (hinherits n hn).2 p hpos
    · obtain ⟨n, hn, hpos⟩ := Option.bind_eq_some_iff.mp hp
      exact (hmodel n hn).2 p hpos
  · intro f hf
    obtain ⟨hproper, hclosed⟩ := hm.functions f (List.mem_filter.mp hf).1
    exact ⟨hproper, hcode f.fragment
      (List.mem_append_left _ (List.mem_map_of_mem (List.mem_append_left _ hf))) hclosed⟩
  · intro f hf
    obtain ⟨hproper, hin⟩ := hd.directives.functions f hf
    exact ⟨hproper, hready f.fragment
      (List.mem_append_left _ (List.mem_map_of_mem (List.mem_append_right _ hf))) hin.toIn⟩
  · exact fun f hf => hready f (List.mem_append_right _ hf) (hd.nodes.fragments f hf).toIn

end

/-! ### Every part of a unit has tokens -/

theorem isSome_append (a b : Cut) : (a ++ b).isSome = (a.isSome && b.isSome) := by
  cases a <;> cases b <;> rfl

theorem isSome_markCut (pragmas : Bool) (pos : SourcePos) : (markCut pragmas pos).isSome = true := by
  cases pragmas <;> rfl

theorem isSome_markOf (pragmas : Bool) (pos : Option SourcePos) : (markOf pragmas pos).isSome = true := by
  cases pos with
  | none => rfl
  | some pos => exact isSome_markCut pragmas pos

theorem isSome_dottedCut (ns : List (List Char)) : (dottedCut ns).isSome = true := by
  induction ns using dottedCut.induct with
  | case1 => rfl
  | case2 n => rfl
  | case3 n m ns ih => rw [dottedCut, isSome_append, isSome_append, ih]; rfl

theorem isSome_namesCut (ns : List String) : (namesCut ns).isSome = true := by
  induction ns using namesCut.induct with
  | case1 => rfl
  | case2 n => rfl
  | case3 n m ns ih => rw [namesCut, isSome_append, isSome_append, ih]; rfl

theorem isSome_join {cs : List Cut} (h : ∀ c ∈ cs, c.isSome = true) : (Cut.join cs).isSome = true := by
  induction cs with
  | nil => rfl
  | cons c cs ih =>
    rw [Cut.join, isSome_append, h c List.mem_cons_self, ih fun x hx => h x (List.mem_cons_of_mem _ hx)]
    rfl

theorem isSome_word (w : String) : (word w).isSome = true := rfl

theorem isSome_sym (s : Symbol) : (sym s).isSome = true := rfl

theorem isSome_one (t : Token) : (Cut.one t).isSome = true := rfl

/-- The code has tokens on one line. -/
def HasTokens (f : Fragment) : Prop := (tokens? false (f.text.map Line.oneLine)).isSome = true

theorem HasTokens.code {code : String} {pos : SourcePos} (h : HasTokens ⟨code.toList, pos⟩) :
    (codeCut code).isSome = true := h

theorem StandsAlone.hasTokens {f : Fragment} (h : StandsAlone f) : HasTokens f := by
  obtain ⟨ls, e, hline, -⟩ := h.tokens
  rw [HasTokens, hline]
  rfl

section
variable {pragmas : Bool}

mutual

theorem isSome_nodeCut : (n : Node) → (∀ f ∈ codeOf n, HasTokens f) → (nodeCut pragmas n).isSome = true
  | .text _ _, _ => rfl
  | .expr code pos, h => by
    have hcode := (h _ (List.mem_singleton_self _)).code
    simp only [nodeCut, isSome_append, isSome_markCut, isSome_word, isSome_sym, hcode, Bool.and_self]
  | .var name code pos, h => by
    have hcode := (h _ (List.mem_singleton_self _)).code
    simp only [nodeCut, isSome_append, isSome_markCut, isSome_word, isSome_sym, hcode, Bool.and_self]
  | .ifElse branches none, h => isSome_branchesCut branches h rfl
  | .ifElse branches (some body), h => by
    have hbranches := isSome_branchesCut branches (fun f hf => h f (List.mem_append_left _ hf)) (isSome_word "if")
    have hbody := isSome_nodesCut body fun f hf => h f (List.mem_append_right _ (codeOfAll_subset _ hf))
    simp only [nodeCut, bracesCut, isSome_append, isSome_word, isSome_sym, hbranches, hbody, Bool.and_self]
  | .forEach var source pos body, h => by
    have hcode := (h _ List.mem_cons_self).code
    have hbody := isSome_nodesCut body fun f hf => h f (List.mem_cons_of_mem _ (codeOfAll_subset _ hf))
    simp only [nodeCut, bracesCut, isSome_append, isSome_markCut, isSome_word, isSome_sym, hcode, hbody, Bool.and_self]
  | .sectionDef _ _ _, _ => rfl

theorem isSome_nodesCut : (ns : List Node) → (∀ f ∈ codeOfAll ns, HasTokens f) → (nodesCut pragmas ns).isSome = true
  | [], _ => rfl
  | n :: ns, h => by
    rw [nodesCut, isSome_append, isSome_nodeCut n fun f hf => h f (List.mem_append_left _ hf),
      isSome_nodesCut ns fun f hf => h f (List.mem_append_right _ hf)]
    rfl

theorem isSome_branchesCut : (bs : List Markup.Branch) → (∀ f ∈ Markup.Branch.fragmentsAll bs, HasTokens f) →
    ∀ {start : Cut}, start.isSome = true → (branchesCut pragmas start bs).isSome = true
  | [], _, _, _ => rfl
  | .mk cond pos body :: rest, h, start, hstart => by
    have hcode := (h _ List.mem_cons_self).code
    have hbody := isSome_nodesCut body fun f hf =>
      h f (List.mem_cons_of_mem _ (List.mem_append_left _ (codeOfAll_subset _ hf)))
    have helse : (word "else" ++ word "if").isSome = true := rfl
    have hrest := isSome_branchesCut rest (fun f hf => h f (List.mem_cons_of_mem _ (List.mem_append_right _ hf))) helse
    simp only [branchesCut, bracesCut, isSome_append, isSome_markCut, isSome_sym, hstart, hcode, hbody, hrest,
      Bool.and_self]

end

theorem isSome_partCut {p : Part} (h : ∀ f ∈ p.fragments, HasTokens f) : (p.cut pragmas).isSome = true := by
  cases p with
  | layout pos inherited key =>
    have hdefault : (if inherited then word "default" else Cut.nil).isSome = true := by cases inherited <;> rfl
    simp only [Part.cut, isSome_append, isSome_markOf, isSome_word, isSome_sym, isSome_one, hdefault, Bool.and_self]
  | function own f =>
    have hcode := (h _ (List.mem_singleton_self _)).code
    simp only [Part.cut, isSome_append, isSome_markOf, isSome_word, isSome_sym, isSome_namesCut, hcode, Bool.and_self]
  | sectionDef name body =>
    have hbody : (nodesCut pragmas body).isSome = true := isSome_nodesCut body fun f hf => h f (codeOfAll_subset _ hf)
    simp only [Part.cut, bracesCut, isSome_append, isSome_word, isSome_sym, isSome_one, hbody, Bool.and_self]
  | execute body =>
    simp only [Part.cut, bracesCut, isSome_append, isSome_word, isSome_sym, isSome_nodesCut body h, Bool.and_self]

/-- A unit has tokens as soon as its code has. -/
theorem isSome_unitCut {bases : List BaseType} {context : TypeContext} {d : Declared} {nodes : List Node}
    (h : ∀ f ∈ unitFragments d nodes, HasTokens f) : (unitCut pragmas bases context d nodes).isSome = true := by
  have husings : (Cut.join ((usedNamespaces bases context d).map usingCut)).isSome = true := by
    refine isSome_join fun c hc => ?_
    obtain ⟨s, -, rfl⟩ := List.mem_map.mp hc
    simp only [usingCut, pathCut, isSome_append, isSome_word, isSome_sym, isSome_dottedCut, Bool.and_self]
  have hparts : (partsCut pragmas (parts d nodes)).isSome = true := by
    refine isSome_join fun c hc => ?_
    obtain ⟨p, hp, rfl⟩ := List.mem_map.mp hc
    exact isSome_partCut fun f hf => h f (parts_fragments hp hf)
  simp only [unitCut, headerCut, pathCut, isSome_append, isSome_word, isSome_sym, isSome_markOf, isSome_dottedCut,
    husings, hparts, Bool.and_self]

end

/-! ### The tree of a generated unit -/

/-- The tokens of a generated unit. -/
theorem unit_tokens {pragmas : Bool} {key : String} {bases : List BaseType} {context : TypeContext} {d : Declared}
    {nodes : List Node} (h : UnitReady bases context d nodes)
    (hcounted : Counted (Line.select pragmas (unitLines key bases context d nodes))) :
    tokens? true (Line.render (Line.select pragmas (unitLines key bases context d nodes))).toList =
      unitCut pragmas bases context d nodes := by
  have := unit_tells h hcounted []
  rw [List.append_nil, tokens?_nil, Cut.append_nil] at this
  rw [Line.toList_render, this]

theorem counted_of_length {lines : List Line} (h : (Line.render lines).length ≤ Text.maxCount) : Counted lines := by
  rw [← String.length_toList, Line.toList_render] at h
  exact .inr h

/-- If all the code of a template and of its import files stands alone, the unit that is generated is read, and its
tree says what they declare: the sorted namespaces, the layout, the functions, and for each section and for the body
one statement for each node. With pragmas on a statement has the place of its node, with pragmas off it has none. -/
theorem generated_tree {g : Generator} {source : TemplateSource} {imports : List TemplateSource} {context : TypeContext}
    {u : Generated} {imported : Imported} {d : Document} (himported : Imported.ofFiles imports = .ok imported)
    (hd : Markup.parse source.key source.content = .ok d) (hgen : g.generate source imports context = .ok u)
    (hcontext : Dotted g.baseTypes context)
    (hcode : ∀ f ∈ unitFragments (Declared.merge imported d.directives) d.nodes, StandsAlone f)
    (hcontent : source.content.length < Text.maxCount) (hunit : u.source.length ≤ Text.maxCount) :
    ∃ tree, Tree.ofSource u.source = .ok tree ∧
      MirrorTree Spelled g.pragmas g.baseTypes context (Declared.merge imported d.directives) d.nodes tree := by
  obtain ⟨imported', d', himported', hd', hsource⟩ := generate_eq_ok hgen
  cases himported.symm.trans himported'
  cases hd.symm.trans hd'
  have hfrom := Markup.parse_from hd
  have hready := unit_ready hcontext (Imported.proper_ofFiles himported) hfrom
    (by rwa [String.length_toList]) fun f hf => (hcode f hf).comment
  rw [hsource] at hunit
  have htokens := unit_tokens hready (counted_of_length hunit)
  have hsome : (unitCut g.pragmas g.baseTypes context (Declared.merge imported d.directives) d.nodes).isSome = true :=
    isSome_unitCut fun f hf => (hcode f hf).hasTokens
  obtain ⟨ts, hts⟩ := Option.isSome_iff_exists.mp hsome
  obtain ⟨ls, hls, rfl⟩ := exists_lexemes (htokens.trans hts)
  obtain ⟨tree, hunitls, htree⟩ := unit_marked (fun p => parts_proper hfrom.nodes.proper)
    (fun p hp f hf => (hcode f (parts_fragments hp hf)).yields) hts
  refine ⟨tree, ?_, htree⟩
  rw [Tree.ofSource, hsource, hls]
  exact hunitls.reads

/-- The member that the page writes is an expression on its own. -/
theorem memberPage_code (pos : SourcePos) : StandsAlone ⟨"Model.Name".toList, pos⟩ where
  comment := rfl
  spelled := ⟨_, _, _, rfl, rfl, rfl⟩

/-- The page has no other code. -/
theorem memberPage_fragments {d : Document} (hd : Markup.parse memberPage.key memberPage.content = .ok d) :
    ∀ f ∈ unitFragments (Declared.merge {} d.directives) d.nodes, f.text = "Model.Name".toList := by
  obtain ⟨d', hd', hfragments⟩ := exists_of_toOption_any memberPage_generates.2
  cases hd.symm.trans hd'
  obtain ⟨f, hf, htext⟩ := List.map_eq_singleton_iff.mp (of_decide_eq_true hfragments)
  intro g hg
  have hfg : g ∈ d.fragments := hg
  rw [hf, List.mem_singleton] at hfg
  rw [hfg, htext]

theorem memberPageContext_dotted : Dotted BaseType.builtins memberPageContext :=
  ⟨by decide, by decide, by decide, by decide⟩

/-- The unit of the page has the tree that mirrors the page. -/
theorem generated_tree_memberPage : ∃ (u : Generated) (d : Document) (tree : Tree),
    ({} : Generator).generate memberPage [] memberPageContext = .ok u ∧
      Markup.parse memberPage.key memberPage.content = .ok d ∧ Tree.ofSource u.source = .ok tree ∧
      MirrorTree Spelled true BaseType.builtins memberPageContext (Declared.merge {} d.directives) d.nodes tree := by
  obtain ⟨hgen, hparse⟩ := memberPage_generates
  obtain ⟨u, hu, hlength⟩ := exists_of_toOption_any hgen
  obtain ⟨d, hd, -⟩ := exists_of_toOption_any hparse
  have hcode : ∀ f ∈ unitFragments (Declared.merge {} d.directives) d.nodes, StandsAlone f := by
    rintro ⟨text, pos⟩ hf
    cases memberPage_fragments hd _ hf
    exact memberPage_code pos
  obtain ⟨tree, htree, hof⟩ := generated_tree rfl hd hu memberPageContext_dotted hcode (by decide +kernel)
    (Nat.le_trans (length_le_utf8ByteSize _) (of_decide_eq_true hlength))
  exact ⟨u, d, tree, hu, hd, htree, hof⟩

end Stencil.Unit
