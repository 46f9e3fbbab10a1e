import Stencil.Proofs.Unit.Generation
import Stencil.Proofs.Unit.Pragmas

/-! The name of a model type in the header of a class.

The header holds the name as it is, whatever text it is. The tokens of a unit up to the end of that line are those of the
name with the bracket behind it, and the class goes on behind them. As the class closes the braces that it opens, and none
that were open before, the name cannot open the class itself: the unit is read only if the name reads as names joined by
dots, and then it is the same unit but for that name. -/

namespace Stencil

namespace Unit

open Markup (Node Fragment)
open Grammar (IsSymbol IsWord IsName IsPath IsSpace IsVisibility)
open Marked (Pending Marks)

/-! ### Names among tokens -/

section
variable {b : Bool} {x : Char} {cs rest : List Char} {w : String} {ts : List Token}

theorem isName_of_token? (h : token? x (x :: cs) = some (.name w, rest)) : Text.isName w.toList = true := by
  obtain ⟨lex, hfirst⟩ := FirstToken.of_token? h
  cases hfirst with
  | name hx =>
    rw [String.toList_ofList, List.takeWhile_cons_of_pos (Text.isNameChar_of_isNameStart hx), Text.isName, hx, Bool.true_and]
    exact List.all_takeWhile

/-- The names among the tokens of a text are names. -/
theorem isName_of_mem_tokens? (h : tokens? b cs = some ts) (hw : .name w ∈ ts) : Text.isName w.toList = true := by
  have hlexes := lexes_of_tokens? h
  clear h
  induction hlexes with
  | nil => cases hw
  | newline _ ih | blank _ _ _ ih | comment _ ih => exact ih hw
  | pragma _ _ ih => exact ih ((List.mem_cons.mp hw).resolve_left nofun)
  | token _ _ _ ht _ ih =>
    rcases List.mem_cons.mp hw with rfl | hw
    · exact isName_of_token? ht
    · exact ih hw

end

/-! ### Dotted names -/

section
variable {ls : List Lexeme} {n : Named}

theorem dottedCut_concat {ns : List (List Char)} (hns : ns ≠ []) (w : List Char) :
    dottedCut (ns ++ [w]) = dottedCut ns ++ (sym .dot ++ .one (.name (String.ofList w))) := by
  induction ns using dottedCut.induct with
  | case1 => exact absurd rfl hns
  | case2 n => rfl
  | case3 n m ns ih =>
    have hrest := ih (List.cons_ne_nil _ _)
    rw [List.cons_append, List.cons_append] at *
    rw [dottedCut, dottedCut, hrest, Cut.append_assoc, Cut.append_assoc]

/-- The tokens of a path are those of its name. -/
theorem pathCut_of_isPath (h : IsPath ls n) (hnames : ∀ l ∈ ls, ∀ w, l.token = .name w → Text.isName w.toList = true) :
    (pathCut n.name).Of ls := by
  have hfields : ∀ {w : String}, Text.isName w.toList = true → Text.fields '.' w.toList = [w.toList] := fun hw =>
    Text.fields_of_not_mem fun hdot => absurd (Text.isNameChar_of_isName hw hdot) (by decide)
  induction h with
  | @name l n hn =>
    cases hn
    rw [pathCut, hfields (hnames _ (List.mem_singleton_self _) _ rfl), dottedCut, String.ofList_toList]
    rfl
  | @dot ls d l m n _ hd hn ih =>
    cases hn
    have hm := ih fun l hl => hnames l (List.mem_append_left _ hl)
    have hw := hnames ⟨.name n.name, n.pos⟩ (by simp) _ rfl
    rw [Cut.Of, pathCut] at hm ⊢
    rw [String.toList_append, String.toList_append, List.append_assoc]
    show dottedCut (Text.fields '.' (m.name.toList ++ '.' :: n.name.toList)) = _
    rw [Text.fields_append, hfields hw, dottedCut_concat (Text.fields_ne_nil _ _), hm, String.ofList_toList, List.map_append]
    show Cut.all _ ++ Cut.all [.symbol .dot, .name n.name] = _
    rw [Cut.all_append, List.map_cons, List.map_singleton, hd]
    rfl

theorem mem_path (h : IsPath ls n) : ∀ l ∈ ls, (∃ w, l.token = .name w) ∨ IsSymbol .dot l := by
  induction h with
  | name hn =>
    cases hn
    exact List.forall_mem_singleton.mpr (.inl ⟨_, rfl⟩)
  | dot _ hd hn ih =>
    cases hn
    exact List.forall_mem_append.mpr ⟨ih, List.forall_mem_cons.mpr ⟨.inr hd, List.forall_mem_singleton.mpr (.inl ⟨_, rfl⟩)⟩⟩

end

/-! ### The first symbol of a kind -/

section
variable {s : Symbol} {l x y : Lexeme} {ls rs us vs : List Lexeme}

/-- None of the tokens is the symbol. -/
def Lacks (s : Symbol) (ls : List Lexeme) : Prop := ∀ l ∈ ls, ¬IsSymbol s l

theorem lacks_nil : Lacks s [] := List.forall_mem_nil _

theorem lacks_append (hl : Lacks s ls) (hr : Lacks s rs) : Lacks s (ls ++ rs) := List.forall_mem_append.mpr ⟨hl, hr⟩

theorem lacks_cons (hl : ¬IsSymbol s l) (hr : Lacks s rs) : Lacks s (l :: rs) := List.forall_mem_cons.mpr ⟨hl, hr⟩

theorem not_symbol_word {w : String} (h : IsWord w l) : ¬IsSymbol s l := fun hl => nomatch h.symm.trans hl

theorem not_symbol_name {n : Named} (h : IsName n l) : ¬IsSymbol s l := not_symbol_word (congrArg Lexeme.token h)

theorem not_symbol_other {r : Symbol} (h : IsSymbol r l) (hs : s ≠ r) : ¬IsSymbol s l := fun hl => by
  cases h.symm.trans hl
  exact hs rfl

theorem lacks_marks {q r : Pending} (h : Marks q ls r) : Lacks s ls := by
  induction h with
  | nil => exact lacks_nil
  | cons hl _ ih => exact lacks_cons (fun h => nomatch hl.symm.trans h) ih

theorem lacks_names (h : ∀ l ∈ ls, (∃ w, l.token = .name w) ∨ IsSymbol .dot l) (hdot : s ≠ .dot) : Lacks s ls := fun l hl => by
  rcases h l hl with ⟨w, hw⟩ | hd
  · exact not_symbol_word hw
  · exact not_symbol_other hd hdot

theorem lacks_path {n : Named} (h : IsPath ls n) (hdot : s ≠ .dot) : Lacks s ls := lacks_names (mem_path h) hdot

theorem lacks_space {space : Option String} (h : IsSpace ls space) (hdot : s ≠ .dot) (hend : s ≠ .semicolon) : Lacks s ls := by
  cases h with
  | none => exact lacks_nil
  | some hk hp hs =>
    exact lacks_append (lacks_cons (not_symbol_word hk) (lacks_path hp hdot))
      (lacks_cons (not_symbol_other hs hend) lacks_nil)

theorem lacks_usings {q r : Pending} {ns : List Named} (h : Marked.IsUsings q ls ns r) (hdot : s ≠ .dot)
    (hend : s ≠ .semicolon) : Lacks s ls := by
  induction h with
  | nil => exact lacks_nil
  | cons hm hk hp hs _ ih =>
    exact lacks_append (lacks_marks hm)
      (lacks_cons (not_symbol_word hk) (lacks_append (lacks_path hp hdot) (lacks_cons (not_symbol_other hs hend) ih)))

theorem lacks_visibility (h : IsVisibility ls) : Lacks s ls := by
  cases h with
  | none => exact lacks_nil
  | hidden hl | visible hl => exact lacks_cons (not_symbol_word hl) lacks_nil

/-- The first symbol of a kind among the same tokens is the same one. -/
theorem eq_of_lacks (hl : Lacks s ls) (hr : Lacks s rs) (hx : IsSymbol s x) (hy : IsSymbol s y)
    (h : ls ++ x :: us = rs ++ y :: vs) : us = vs := by
  rcases List.append_eq_append_iff.mp h with ⟨ws, rfl, hws⟩ | ⟨ws, rfl, hws⟩
  · cases ws with
    | nil => exact (List.cons.inj hws).2
    | cons w ws =>
      cases hws
      exact absurd hx (hr _ (by simp))
  · cases ws with
    | nil => exact (List.cons.inj hws).2.symm
    | cons w ws =>
      cases hws
      exact absurd hy (hl _ (by simp))

end

/-! ### The name cannot open the class -/

section
variable {front ls ps : List Lexeme} {lt o e : Lexeme} {t : Tree}

/-- The tokens of a unit up to the bracket in front of the model type. -/
inductive IsOpening : List Lexeme → Prop
  | mk {ms ss us ps vs bs : List Lexeme} {q r t : Pending} {k l c : Lexeme} {space : Option String} {usings : List Named}
      {n base : Named} (hm : Marks none ms q) (hs : IsSpace ss space) (hu : Marked.IsUsings q us usings r)
      (hp : Marks r ps t) (hv : IsVisibility vs) (hk : IsWord "class" k) (hn : IsName n l)
      (hc : IsSymbol .colon c) (hb : IsPath bs base) :
      IsOpening (ms ++ (ss ++ (us ++ (ps ++ (vs ++ k :: l :: c :: bs)))))

theorem IsOpening.lacks (h : IsOpening ls) : Lacks .less ls := by
  cases h with
  | mk hm hs hu hp hv hk hn hc hb =>
    have hclass := lacks_cons (s := .less) (not_symbol_word hk) (lacks_cons (not_symbol_name hn)
      (lacks_cons (not_symbol_other hc nofun) (lacks_path hb nofun)))
    exact lacks_append (lacks_marks hm) (lacks_append (lacks_space hs nofun nofun) (lacks_append (lacks_usings hu nofun nofun)
      (lacks_append (lacks_marks hp) (lacks_append (lacks_visibility hv) hclass))))

/-- Tokens that close what they open do not end behind a brace that was open before. -/
theorem ends_before_of_nest {us vs : List Lexeme} (hls : nest false [] ls = some []) (he : IsSymbol .closeBrace e)
    (hvs : ∀ st, nest false st vs = some st) (hne : vs ≠ []) (h : us ++ vs = ls ++ [e]) : False := by
  have hnone : nest false [] us = none := by
    have hall : nest false [] (us ++ vs) = nest false [] [e] := by rw [h, nest_append_of hls]
    rw [nest_append, nest_symbol he, funext hvs, Option.bind_fun_some] at hall
    exact hall
  obtain rfl | ⟨vs, v, rfl⟩ := List.eq_nil_or_concat vs
  · exact hne rfl
  · rw [List.concat_eq_append, ← List.append_assoc] at h
    obtain ⟨rfl, -⟩ := List.append_inj' h rfl
    rw [nest_append, hnone] at hls
    cases hls

/-- What is read is opened, names its model type, and is a class. -/
theorem exists_class_of_ofLexemes (h : Tree.ofLexemes ls = .ok t) :
    ∃ front lt ps gt o bs, ls = front ++ lt :: (ps ++ gt :: o :: bs) ∧ IsOpening front ∧ IsSymbol .less lt ∧
      IsPath ps t.decl.model ∧ IsSymbol .greater gt ∧ IsSymbol .openBrace o ∧
      ∃ ms e, withoutPragmas bs = ms ++ [e] ∧ IsSymbol .closeBrace e ∧ ∀ st, nest false st ms = some st := by
  cases Marked.isUnit_of_ofLexemes h with
  | @mk _ _ _ _ ms' _ _ _ _ _ _ _ hm hs hu hc hm' =>
    cases hc with
    | @mk _ _ _ _ _ _ _ ms ps' _ _ _ lt gt o e _ _ _ _ hp hv hk hn hcolon hb hl hmodel hg ho hms hp' he =>
      refine ⟨_, lt, _, gt, o, ms ++ (ps' ++ e :: ms'), ?_, .mk hm hs hu hp hv hk hn hcolon hb, hl, hmodel, hg, ho,
        withoutPragmas ms, e, ?_, he, hms.plain.nest⟩
      · simp
      · have hend : withoutPragmas ms' = [] := by
          rw [← List.append_nil ms', hm'.without]
          rfl
        rw [withoutPragmas_append, hp'.without, withoutPragmas_cons (plain_symbol he), hend]

/-- Between the angle bracket and the members of a class stands a path with the other bracket. -/
theorem IsOpening.path_of_ofLexemes (hopen : IsOpening front) (hl : IsSymbol .less lt) (ho : IsSymbol .openBrace o)
    {members : List Member} {q : Pending} (hm : Marked.IsMembers none ps members q) (he : IsSymbol .closeBrace e)
    (h : Tree.ofLexemes (front ++ lt :: (ls ++ o :: (ps ++ [e]))) = .ok t) :
    ∃ ms gt, ls = ms ++ [gt] ∧ IsPath ms t.decl.model ∧ IsSymbol .greater gt := by
  obtain ⟨front', lt', ms, gt, o', bs, hls, hopen', hl', hpath, hg, ho', body, e', hbody, he', hnest⟩ :=
    exists_class_of_ofLexemes h
  have heq := eq_of_lacks hopen.lacks hopen'.lacks hl hl' hls
  rw [show ms ++ gt :: o' :: bs = (ms ++ [gt]) ++ o' :: bs by simp] at heq
  rcases List.append_eq_append_iff.mp heq with ⟨ws, hws, hrest⟩ | ⟨ws, hws, hrest⟩
  · cases ws with
    | nil => exact ⟨ms, gt, by rw [hws, List.append_nil], hpath, hg⟩
    | cons w ws =>
      -- The brace would be a token of the path.
      obtain ⟨rfl, -⟩ := List.cons.inj hrest
      have hmem : o ∈ ms ++ [gt] := hws ▸ by simp
      rcases List.mem_append.mp hmem with hmem | hmem
      · rcases mem_path hpath o hmem with ⟨w, hw⟩ | hd
        · exact absurd (hw.symm.trans ho) nofun
        · exact absurd (hd.symm.trans ho) nofun
      · cases List.mem_singleton.mp hmem
        exact absurd (hg.symm.trans ho) nofun
  · cases ws with
    | nil => exact ⟨ms, gt, by rw [hws, List.append_nil], hpath, hg⟩
    | cons w ws =>
      -- The members would have to close the brace that the class opens.
      obtain ⟨rfl, rfl⟩ := List.cons.inj hrest
      have hplain : withoutPragmas (o :: (ps ++ [e])) = o :: (withoutPragmas ps ++ [e]) := by
        rw [withoutPragmas_cons (plain_symbol ho), withoutPragmas_append, withoutPragmas_cons (plain_symbol he)]
        rfl
      have hclosed : ∀ st, nest false st (o :: (withoutPragmas ps ++ [e])) = some st := fun st => by
        rw [nest_symbol ho, nestStep, Option.bind_some, nest_append_of (hm.plain.nest _)]
        exact nest_symbol he
      have hbody' : withoutPragmas ws ++ o :: (withoutPragmas ps ++ [e]) = body ++ [e'] := by
        rw [← hplain, ← withoutPragmas_append]
        exact hbody
      exact (ends_before_of_nest (hnest []) he' hclosed (List.cons_ne_nil _ _) hbody').elim

end

/-! ### Names that can be read -/

/-- The text, as it stands in the header, reads as the name. -/
def ReadsAs (written name : String) : Prop := writtenCut written = pathCut name ++ sym .greater

theorem readsAs_of_dotted {name : String} (h : Text.isDottedName name.toList = true) : ReadsAs name name := writtenCut_path h

theorem mem_dottedCut {ns : List (List Char)} {ts : List Token} {t : Token} (h : dottedCut ns = some ts) (ht : t ∈ ts) :
    (∃ w, t = .name w) ∨ t = .symbol .dot := by
  induction ns using dottedCut.induct generalizing ts with
  | case1 =>
    cases h
    cases ht
  | case2 n =>
    cases h
    exact .inl ⟨_, List.mem_singleton.mp ht⟩
  | case3 n m ns ih =>
    obtain ⟨us, vs, hus, hvs, rfl⟩ := Cut.append_eq_some.mp h
    obtain ⟨us', vs', hus', hvs', rfl⟩ := Cut.append_eq_some.mp hvs
    cases hus
    cases hus'
    rcases List.mem_cons.mp ht with rfl | ht
    · exact .inl ⟨_, rfl⟩
    · rcases List.mem_cons.mp ht with rfl | ht
      · exact .inr rfl
      · exact ih hvs' ht

/-- A text that reads as a name has no tokens but names and dots, and the bracket behind it. -/
theorem ReadsAs.mem {written name : String} (h : ReadsAs written name) {ts : List Token} (hts : writtenCut written = some ts)
    {t : Token} (ht : t ∈ ts) : (∃ w, t = .name w) ∨ t = .symbol .dot ∨ t = .symbol .greater := by
  obtain ⟨us, vs, hus, hvs, rfl⟩ := Cut.append_eq_some.mp (h.symm.trans hts)
  cases hvs
  rcases List.mem_append.mp ht with ht | ht
  · exact (mem_dottedCut hus ht).imp_right .inl
  · exact .inr (.inr (List.mem_singleton.mp ht))

theorem readsAs_of_isPath {written : String} {ls : List Lexeme} {gt : Lexeme} {n : Named}
    (h : (writtenCut written).Of (ls ++ [gt])) (hp : IsPath ls n) (hg : IsSymbol .greater gt) : ReadsAs written n.name := by
  have hnames : ∀ l ∈ ls, ∀ w, l.token = .name w → Text.isName w.toList = true := fun l hl w hw =>
    isName_of_mem_tokens? h (List.mem_map.mpr ⟨l, List.mem_append_left _ hl, hw⟩)
  have hpath : pathCut n.name = some (ls.map (·.token)) := pathCut_of_isPath hp hnames
  rw [ReadsAs, hpath]
  refine Eq.trans h ?_
  rw [List.map_append, List.map_singleton, hg]
  rfl

section
variable {Means : List Char → Expr → Prop} {pragmas : Bool} {key : String} {bases : List BaseType} {context : TypeContext}
  {d : Declared} {nodes : List Node} {m : ModelType} {t : Tree}

/-- The tokens of a unit, whatever text the name of its model type is. -/
theorem written_unit_tokens (h : UnitReady bases { context with modelType := m } d nodes) (hd : d.model = none)
    (hcounted : Counted (Line.select pragmas (unitLines key bases context d nodes))) :
    tokens? true (Line.render (Line.select pragmas (unitLines key bases context d nodes))).toList =
      writtenUnitCut pragmas bases context d nodes := by
  have := unit_tells_written h (.inl (by rw [hd]; rfl)) hcounted []
  rw [List.append_nil, tokens?_nil, Cut.append_nil] at this
  rw [Line.toList_render, this]

theorem isOpening_of {us ms os : List Lexeme} (hprelude : (preludeCut bases context d).Of us)
    (hm : (markOf pragmas d.headerPos).Of ms) (hopening : (openingCut context d).Of os) :
    ∃ front lt, us ++ (ms ++ os) = front ++ [lt] ∧ IsOpening front ∧ IsSymbol .less lt := by
  obtain ⟨k, _, rfl, hk, hprelude⟩ := of_word hprelude
  obtain ⟨ss, _, rfl, hspace, hprelude⟩ := of_append hprelude
  obtain ⟨s, us, rfl, hs, hu⟩ := of_sym hprelude
  obtain ⟨i, _, rfl, hi, hopening⟩ := of_word hopening
  obtain ⟨c, _, rfl, hc, hopening⟩ := of_word hopening
  obtain ⟨p, _, rfl, hrest⟩ := of_name hopening
  obtain ⟨co, _, rfl, hco, hopening⟩ := of_sym hrest
  obtain ⟨bs, _, rfl, hb, hopening⟩ := of_append hopening
  obtain ⟨lt, rfl, hlt⟩ := of_lastSym hopening
  obtain ⟨space, hspace, -⟩ := isPath_of_pathCut hspace
  obtain ⟨usings, husings, -⟩ := isUsings_of_join hu
  obtain ⟨base, hbase, -⟩ := isPath_of_pathCut hb
  have hopen := IsOpening.mk (n := ⟨context.className.text, p⟩) .nil (.some hk hspace hs) husings (marks_of_markOf hm)
    (.hidden hi) hc rfl hco hbase
  exact ⟨_, lt, by simp, hopen, hlt⟩

/-- The name of the model type stands between the opening of a unit and the members of its class. -/
theorem written_unit_of {ls : List Lexeme} (h : (writtenUnitCut pragmas bases context d nodes).Of ls) :
    ∃ front lt ns o ps e, ls = front ++ lt :: (ns ++ o :: (ps ++ [e])) ∧ IsOpening front ∧ IsSymbol .less lt ∧
      (writtenCut (d.modelName context)).Of ns ∧ IsSymbol .openBrace o ∧ (partsCut pragmas (parts d nodes)).Of ps ∧
      IsSymbol .closeBrace e := by
  obtain ⟨us, _, rfl, hprelude, h⟩ := of_append h
  obtain ⟨ms, _, rfl, hm, h⟩ := of_append h
  obtain ⟨os, _, rfl, hopening, h⟩ := of_append h
  obtain ⟨ns, _, rfl, hn, h⟩ := of_append h
  obtain ⟨o, _, rfl, ho, h⟩ := of_sym h
  obtain ⟨ps, _, rfl, hparts, h⟩ := of_append h
  obtain ⟨e, rfl, he⟩ := of_lastSym h
  obtain ⟨front, lt, hfront, hopen, hlt⟩ := isOpening_of hprelude hm hopening
  refine ⟨front, lt, ns, o, ps, e, ?_, hopen, hlt, hn, ho, hparts, he⟩
  calc us ++ (ms ++ (os ++ (ns ++ o :: (ps ++ [e]))))
      = us ++ (ms ++ os) ++ (ns ++ o :: (ps ++ [e])) := by simp only [List.append_assoc]
    _ = front ++ lt :: (ns ++ o :: (ps ++ [e])) := by rw [hfront, List.append_assoc, List.singleton_append]

/-- Of a unit that is read, the text that stands for the name of the model type reads as the model's name. -/
theorem readsAs_of_read (h : UnitReady bases { context with modelType := m } d nodes) (hd : d.model = none)
    (hcounted : Counted (Line.select pragmas (unitLines key bases context d nodes)))
    (hcode : ∀ f ∈ unitFragments d nodes, Yields Means f)
    (hread : Tree.ofSource (Line.render (Line.select pragmas (unitLines key bases context d nodes))) = .ok t) :
    ReadsAs context.modelType.name t.decl.model.name := by
  obtain ⟨ls, hls, hread⟩ := Except.bind_eq_ok.mp hread
  have hof : (writtenUnitCut pragmas bases context d nodes).Of ls :=
    (written_unit_tokens h hd hcounted).symm.trans (lexemes_eq_ok hls)
  obtain ⟨front, lt, ns, o, ps, e, rfl, hopen, hlt, hn, ho, hparts, he⟩ := written_unit_of hof
  obtain ⟨members, hmembers, -⟩ := parts_marked (fun p => parts_proper h.proper)
    (fun p hp f hf => hcode f (parts_fragments hp hf)) hparts
  obtain ⟨path, gt, rfl, hpath, hg⟩ := hopen.path_of_ofLexemes hlt ho hmembers he hread
  have hname : d.modelName context = context.modelType.name := by
    rw [Declared.modelName, hd]
    rfl
  rw [hname] at hn
  exact readsAs_of_isPath hn hpath hg

/-- If the text that stands for the name of the model type reads as a name, the unit is read, as the one for the model type
of that name. -/
theorem read_of_readsAs (h : UnitReady bases { context with modelType := m } d nodes) (hd : d.model = none)
    (hcounted : Counted (Line.select pragmas (unitLines key bases context d nodes)))
    (htokens : ∀ f ∈ unitFragments d nodes, HasTokens f) (hcode : ∀ f ∈ unitFragments d nodes, Yields Means f)
    {name : String} (hname : ReadsAs context.modelType.name name) :
    ∃ t, Tree.ofSource (Line.render (Line.select pragmas (unitLines key bases context d nodes))) = .ok t ∧
      MirrorTree Means pragmas bases { context with modelType := .ofName name } d nodes t := by
  have hwritten : writtenCut (d.modelName context) =
      pathCut (d.modelName { context with modelType := .ofName name }) ++ sym .greater := by
    simp only [Declared.modelName, hd, Option.map_none, Option.getD_none]
    exact hname
  have hsource := written_unit_tokens h hd hcounted
  rw [writtenUnitCut_path hwritten] at hsource
  obtain ⟨ts, hts⟩ := Option.isSome_iff_exists.mp
    (@isSome_unitCut pragmas bases { context with modelType := .ofName name } d nodes htokens)
  obtain ⟨ls, hls, rfl⟩ := exists_lexemes (hsource.trans hts)
  obtain ⟨t, hunit, htree⟩ := unit_marked (fun p => parts_proper h.proper)
    (fun p hp f hf => hcode f (parts_fragments hp hf)) hts
  refine ⟨t, ?_, htree⟩
  rw [Tree.ofSource, hls]
  exact hunit.reads

end

end Unit

end Stencil
