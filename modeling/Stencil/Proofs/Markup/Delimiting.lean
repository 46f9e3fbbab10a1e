import Mathlib.Data.List.Basic
import Stencil.Markup.Printer
import Stencil.Proofs.Markup.Scanning

/-! Taking printed code apart.

Well-nested code is closed, so a search and a split run over it to what was put behind it. A variable's statement and
a loop's header come apart into the name and the code that they were put together from. -/

namespace Stencil.Markup

/-! ### Well-nested code -/

section
variable {w body : List Char}

theorem Scan.after?_literalBody (hb : LiteralBody body) (awaited : List Char) :
    Scan.after? ⟨awaited, .literal⟩ body = some ⟨awaited, .code⟩ := by
  induction hb with
  | close => rfl
  | escape c _ ih => exact ih
  | char hq hb hn _ ih => rw [after?_cons, (Step.inside hb hq hn).step?, Option.bind_some, ih]

theorem WellNested.after? (hw : WellNested w) (awaited : List Char) :
    Scan.after? ⟨awaited, .code⟩ w = some ⟨awaited, .code⟩ := by
  induction hw generalizing awaited with
  | nil => rfl
  | char hq ho hc _ ih => rw [Scan.after?_cons, Scan.step?_plain ⟨hq, ho, hc⟩, Option.bind_some, ih]
  | literal hb _ ih =>
    rw [List.cons_append, Scan.after?_cons, Scan.Step.quote.step?, Option.bind_some,
      Scan.after?_append_of (Scan.after?_literalBody hb awaited), ih]
  | @brackets o e _ _ ho _ _ ihi ih =>
    rw [List.cons_append, Scan.after?_cons, (Scan.Step.opens ho).step?, Option.bind_some,
      Scan.after?_append_of (ihi (e :: awaited)), Scan.after?_cons,
      (Scan.Step.closes (isCloser_of_closerOf? ho)).step?, Option.bind_some, ih]

theorem WellNested.closed (hw : WellNested w) : Closed w := hw.after? []

/-- A literal that is closed in the end is closed by the rest of its body. -/
theorem exists_literalBody : ∀ {cs awaited : List Char}, Scan.after? ⟨awaited, .literal⟩ cs = some {} →
    ∃ body rest, cs = body ++ rest ∧ LiteralBody body ∧ Scan.after? ⟨awaited, .code⟩ rest = some {}
  | [], _, h => by cases h
  | c :: cs, awaited, h => by
    obtain ⟨t, ht, hcs⟩ := Option.bind_eq_some_iff.mp h
    cases Scan.Step.of_step? ht with
    | unquote => exact ⟨['"'], cs, rfl, .close, hcs⟩
    | inside hb hq hn =>
      obtain ⟨body, rest, rfl, hbody, hrest⟩ := exists_literalBody hcs
      exact ⟨c :: body, rest, rfl, .char hq hb hn hbody, hrest⟩
    | backslash =>
      cases cs with
      | nil => cases hcs
      | cons d ds =>
        obtain ⟨body, rest, rfl, hbody, hrest⟩ := @exists_literalBody ds _ hcs
        exact ⟨'\\' :: d :: body, rest, rfl, .escape d hbody, hrest⟩

/-- Code that closes all that is open is well nested up to its end, or up to the bracket that closes the innermost open
one. The induction is on what is left to read: an opening bracket is followed by well-nested code up to its own closing
one, and what stands behind that is shorter. -/
theorem exists_wellNested : ∀ {cs awaited : List Char}, Scan.after? ⟨awaited, .code⟩ cs = some {} →
    ∃ v rest, cs = v ++ rest ∧ WellNested v ∧ ((awaited = [] ∧ rest = []) ∨
      ∃ e outer rest', awaited = e :: outer ∧ rest = e :: rest' ∧ Scan.after? ⟨outer, .code⟩ rest' = some {})
  | [], awaited, h => by
    cases h
    exact ⟨[], [], rfl, .nil, .inl ⟨rfl, rfl⟩⟩
  | c :: cs, awaited, h => by
    obtain ⟨t, ht, hcs⟩ := Option.bind_eq_some_iff.mp h
    cases Scan.Step.of_step? ht with
    | plain hc =>
      obtain ⟨v, rest, rfl, hv, hend⟩ := exists_wellNested hcs
      exact ⟨c :: v, rest, rfl, .char hc.1 hc.2.1 hc.2.2 hv, hend⟩
    | closes he => exact ⟨[], c :: cs, rfl, .nil, .inr ⟨_, _, cs, rfl, rfl, hcs⟩⟩
    | quote =>
      obtain ⟨body, rest, hsplit, hbody, hrest⟩ := exists_literalBody hcs
      have hshorter : rest.length ≤ cs.length := by simp [hsplit]
      obtain ⟨v, rest', rfl, hv, hend⟩ := exists_wellNested hrest
      exact ⟨'"' :: body ++ v, rest', by simp [hsplit], .literal hbody hv, hend⟩
    | @opens _ o e ho =>
      obtain ⟨inner, _, hsplit, hinner, ⟨hnil, -⟩ | ⟨_, _, rest, hopen, rfl, hrest⟩⟩ := exists_wellNested hcs
      · cases hnil
      · cases hopen
        have hshorter : rest.length < cs.length := by
          rw [hsplit, List.length_append, List.length_cons]
          omega
        obtain ⟨v, rest', rfl, hv, hend⟩ := exists_wellNested hrest
        exact ⟨c :: inner ++ e :: v, rest', by simp [hsplit], .brackets ho hinner hv, hend⟩
termination_by cs => cs.length
decreasing_by all_goals simp_wf <;> omega

/-- Code is well nested if reading it leaves nothing open. -/
theorem Closed.wellNested (h : Closed w) : WellNested w := by
  obtain ⟨v, rest, rfl, hv, ⟨-, rfl⟩ | ⟨_, _, _, hopen, -⟩⟩ := exists_wellNested h
  · rwa [List.append_nil]
  · cases hopen

theorem closed_iff_wellNested : Closed w ↔ WellNested w := ⟨Closed.wellNested, WellNested.closed⟩

theorem wellNested_plain (h : ∀ c ∈ w, IsPlain c) : WellNested w := by
  induction w with
  | nil => exact .nil
  | cons c cs ih =>
    have hc := h c List.mem_cons_self
    exact .char hc.1 hc.2.1 hc.2.2 (ih fun d hd => h d (List.mem_cons_of_mem _ hd))

end

/-! ### Searching and splitting -/

section
variable {needle before cs : List Char} {x c : Char}

theorem searchTopLevel_plain (pos : SourcePos) (hc : IsPlain c) (hn : needle.isPrefixOf (c :: cs) = false) :
    searchTopLevel needle 0 .code pos (c :: cs) = (searchTopLevel needle 0 .code (pos.next c) cs).map (· + 1) := by
  simp [searchTopLevel, hc.1, hc.2.1, hc.2.2, hn]

/-- A search runs over characters with which nothing that is looked for starts. -/
theorem searchTopLevel_pass (hb : ∀ c ∈ before, IsPlain c) (hx : x ∉ before) (pos : SourcePos) :
    searchTopLevel (x :: needle) 0 .code pos (before ++ cs) =
      (searchTopLevel (x :: needle) 0 .code (pos.after before) cs).map (· + before.length) := by
  induction before generalizing pos with
  | nil => simp
  | cons c before ih =>
    rw [List.mem_cons, not_or] at hx
    have hn : (x :: needle).isPrefixOf (c :: (before ++ cs)) = false := by simp [List.isPrefixOf, hx.1]
    rw [List.cons_append, searchTopLevel_plain pos (hb c List.mem_cons_self) hn,
      ih (fun d hd => hb d (List.mem_cons_of_mem _ hd)) hx.2, Option.map_map]
    rfl

end

/-- A piece ends at the first semicolon outside brackets and literals. -/
theorem splitPieces_sealed {cs : List Char} {mode : Mode} {s : Scan} (start pos : SourcePos) (piece rest : List Char)
    (hs : s.spot = mode.spot) (hc : s.after? cs = some {}) (hseal : ∀ u v, cs = u ++ ';' :: v → s.after? u ≠ some {}) :
    ∃ pos', splitPieces s.awaited.length mode start pos piece (cs ++ ';' :: rest) =
      ⟨piece.reverse ++ cs, start⟩ :: splitPieces 0 .code pos' pos' [] rest := by
  induction cs generalizing s mode pos piece with
  | nil =>
    cases hc
    cases mode <;> cases hs
    exact ⟨pos.next ';', by simp [splitPieces, closerOf?, isCloser]⟩
  | cons c cs ih =>
    obtain ⟨t, ht, hc⟩ := Option.bind_eq_some_iff.mp hc
    have hgo : ¬(s = {} ∧ c = ';') := by
      rintro ⟨rfl, rfl⟩
      exact hseal [] cs rfl rfl
    obtain ⟨mode', hspot, hon⟩ := splitPieces_cons start pos piece (cs ++ ';' :: rest) hs (.of_step? ht) hgo
    have hseal' : ∀ u v, cs = u ++ ';' :: v → t.after? u ≠ some {} := by
      intro u v hu hclosed
      refine hseal (c :: u) v (by rw [hu, List.cons_append]) ?_
      rw [Scan.after?_cons, ht, Option.bind_some, hclosed]
    obtain ⟨pos', hsplit⟩ := ih (pos.next c) (c :: piece) hspot hc hseal'
    exact ⟨pos', by rw [List.cons_append, hon, hsplit, List.reverse_cons, List.append_assoc, List.singleton_append]⟩

/-- Plain text without a semicolon is one piece. -/
theorem splitPieces_plain {cs : List Char} (start pos : SourcePos) (piece : List Char) (hc : ∀ c ∈ cs, IsPlain c)
    (hx : ';' ∉ cs) : splitPieces 0 .code start pos piece cs = [⟨piece.reverse ++ cs, start⟩] := by
  induction cs generalizing pos piece with
  | nil => rw [splitPieces, List.append_nil]
  | cons c cs ih =>
    obtain ⟨hq, ho, hcl⟩ := hc c List.mem_cons_self
    rw [List.mem_cons, not_or] at hx
    have hsemicolon : c ≠ ';' := fun h => hx.1 h.symm
    simp only [splitPieces, hq, ho, hcl, hsemicolon, if_false, false_and, Option.isSome_none, Bool.false_eq_true]
    rw [ih _ _ (fun d hd => hc d (List.mem_cons_of_mem _ hd)) hx.2, List.reverse_cons, List.append_assoc,
      List.singleton_append]

/-! ### Trimmed text -/

/-- Blanks around a trimmed text are trimmed off. -/
theorem trim_between {before cs after : List Char} (hb : Text.allBlank before = true) (ha : Text.allBlank after = true)
    (hne : cs ≠ []) (ht : Text.trim cs = cs) : Text.trim (before ++ cs ++ after) = cs := by
  have hstart : Text.trimStart (cs ++ after) = cs ++ after := by
    refine Text.trimStart_of_head? fun c hc => ?_
    obtain ⟨d, ds, rfl⟩ := List.exists_cons_of_ne_nil hne
    refine @Text.isBlank_of_head?_trim (d :: ds) c ?_
    rwa [ht]
  have hend : Text.trimStart cs.reverse = cs.reverse := by
    refine Text.trimStart_of_head? fun c hc => ?_
    rw [List.head?_reverse] at hc
    exact Text.isBlank_of_getLast?_trim (ht.symm ▸ hc)
  rw [Text.allBlank, List.all_eq_true] at hb ha
  rw [Text.trimStart] at hstart hend
  rw [Text.trim, Text.trimStart, List.append_assoc, List.dropWhile_append_of_pos hb, hstart, Text.trimEnd,
    List.reverse_append, List.dropWhile_append_of_pos fun c hc => ha c (List.mem_reverse.mp hc), hend,
    List.reverse_reverse]

/-- Words in a row are trimmed if the first and the last one are. -/
theorem trim_append {cs ds : List Char} {x : Char} (hx : cs.head? = some x) (hb : Text.isBlank x = false)
    (hd : ds ≠ []) (hdt : Text.trim ds = ds) : Text.trim (cs ++ ds) = cs ++ ds := by
  refine Text.trim_of_ends (fun c h => ?_) fun c h => ?_
  · rw [List.head?_append, hx] at h
    cases h
    exact hb
  · refine @Text.isBlank_of_getLast?_trim ds c ?_
    rwa [hdt, ← List.getLast?_append_of_ne_nil cs hd]

section
variable {name : List Char}

theorem ne_nil_of_isName (hn : Text.isName name = true) : name ≠ [] := by
  rintro rfl
  cases hn

theorem isPlain_of_isName (hn : Text.isName name = true) {c : Char} (hc : c ∈ name) : IsPlain c :=
  isPlain_of_isNameChar (Text.isNameChar_of_isName hn hc)

/-- No character that cannot be in a name is in one. -/
theorem not_mem_of_isName (hn : Text.isName name = true) {c : Char} (hc : Text.isNameChar c = false) : c ∉ name :=
  fun hmem => by simp [Text.isNameChar_of_isName hn hmem] at hc

theorem trim_of_isName (hn : Text.isName name = true) : Text.trim name = name :=
  Text.trim_of_ends (fun _ hc => Text.not_blank_of_isNameChar (Text.isNameChar_of_isName hn (List.mem_of_head? hc)))
    fun _ hc => Text.not_blank_of_isNameChar (Text.isNameChar_of_isName hn (List.mem_of_getLast? hc))

theorem trim_var (hn : Text.isName name = true) : Text.trim ("var ".toList ++ name) = "var ".toList ++ name :=
  trim_append (x := 'v') rfl (by decide) (ne_nil_of_isName hn) (trim_of_isName hn)

theorem afterVar?_var (hn : Text.isName name = true) : afterVar? ("var ".toList ++ name) = some name := by
  have hp : "var ".toList.isPrefixOf ("var ".toList ++ name) = true :=
    List.isPrefixOf_iff_prefix.mpr (List.prefix_append _ _)
  rw [afterVar?, if_pos hp]
  exact congrArg some (trim_of_isName hn)

end

theorem IsCode.ne_nil {code : String} (hc : IsCode code) : code.toList ≠ [] := by
  intro h
  have hb := hc.notBlank
  rw [h] at hb
  cases hb

/-! ### Statements and headers -/

/-- One statement with its semicolon and blanks around it is read as this statement. -/
theorem statements_between (before : List Char) {cs : List Char} (after : List Char) (pos : SourcePos) (unterminated : Fault)
    (hbefore : Text.allBlank before = true) (hafter : Text.allBlank after = true) (hc : Closed cs) (hs : Sealed cs)
    (ht : Text.trim cs = cs) (hb : Text.allBlank cs = false) :
    ∃ pos', statements ⟨before ++ cs ++ ';' :: after, pos⟩ unterminated = .ok [⟨cs, pos'⟩] := by
  have hplain {bs : List Char} (h : Text.allBlank bs = true) : ∀ c ∈ bs, IsPlain c := fun c hmem =>
    isPlain_of_isBlank (List.all_eq_true.mp h c hmem)
  have hsemicolon {bs : List Char} (h : Text.allBlank bs = true) : ';' ∉ bs := fun hmem =>
    absurd (List.all_eq_true.mp h _ hmem) (by decide)
  have hclosed : Closed (before ++ cs) := (closed_plain (hplain hbefore)).append hc
  have hsealed : Sealed (before ++ cs) :=
    Sealed.append (closed_plain (hplain hbefore)) (sealed_of_not_mem (hsemicolon hbefore)) hs
  obtain ⟨last, hsplit⟩ :=
    splitPieces_sealed pos pos [] after (show ({} : Scan).spot = Mode.spot .code from rfl) hclosed hsealed
  have hpieces : splitStatements ⟨before ++ cs ++ ';' :: after, pos⟩ = [⟨before ++ cs, pos⟩, ⟨after, last⟩] := by
    rw [splitPieces_plain last last [] (hplain hafter) (hsemicolon hafter)] at hsplit
    exact hsplit
  have hne : cs ≠ [] := by
    rintro rfl
    exact absurd hb (by decide)
  have htrim : Text.trim (before ++ cs) = cs := by
    have h := trim_between hbefore (show Text.allBlank [] = true from rfl) hne ht
    rwa [List.append_nil] at h
  refine ⟨pos.after ((before ++ cs).takeWhile Text.isBlank), ?_⟩
  simp only [statements, hpieces, List.getLast?_cons_cons, List.getLast?_singleton, Fragment.isBlank, hafter, if_true,
    List.dropLast_cons_cons, List.dropLast_singleton, List.map_cons, List.map_nil, Fragment.trim, htrim, List.filter_cons, hb,
    Bool.not_false, List.filter_nil]

/-- One statement with its semicolon is read as this statement. -/
theorem statements_single {cs : List Char} (pos : SourcePos) (unterminated : Fault) (hc : Closed cs) (hs : Sealed cs)
    (ht : Text.trim cs = cs) (hb : Text.allBlank cs = false) :
    ∃ pos', statements ⟨cs ++ [';'], pos⟩ unterminated = .ok [⟨cs, pos'⟩] :=
  statements_between [] [] pos unterminated rfl rfl hc hs ht hb

/-- The statement that declares a variable. -/
def varStatement (name code : String) : List Char :=
  "var ".toList ++ name.toList ++ " = ".toList ++ code.toList

/-- What stands between the parentheses of a loop. -/
def loopHeader (var source : String) : List Char :=
  "var ".toList ++ var.toList ++ " in ".toList ++ source.toList

section
variable {name code : String}

theorem isPlain_binding (hn : Text.isName name.toList = true) {cs : List Char} (hcs : ∀ c ∈ cs, IsPlain c) :
    ∀ c ∈ "var ".toList ++ name.toList ++ cs, IsPlain c := by
  simp only [List.mem_append]
  rintro c ((hc | hc) | hc)
  · exact isPlain_of_all (by decide) c hc
  · exact isPlain_of_isName hn hc
  · exact hcs c hc

theorem not_mem_binding (hn : Text.isName name.toList = true) {x : Char} (hx : Text.isNameChar x = false)
    {cs : List Char} (hcs : x ∉ "var ".toList ++ cs) : x ∉ "var ".toList ++ name.toList ++ cs := by
  simp only [List.mem_append, not_or] at hcs ⊢
  exact ⟨⟨hcs.1, not_mem_of_isName hn hx⟩, hcs.2⟩

theorem wellNested_binding (hn : Text.isName name.toList = true) (hc : IsCode code) {cs : List Char}
    (hcs : ∀ c ∈ cs, IsPlain c) : WellNested ("var ".toList ++ name.toList ++ cs ++ code.toList) :=
  (wellNested_plain (isPlain_binding hn hcs)).append hc.nested

theorem trim_binding (hc : IsCode code) (cs : List Char) :
    Text.trim ("var ".toList ++ name.toList ++ cs ++ code.toList) =
      "var ".toList ++ name.toList ++ cs ++ code.toList :=
  trim_append (x := 'v') rfl (by decide) hc.ne_nil hc.trimmed

theorem sealed_varStatement (hn : Text.isName name.toList = true) (hs : Sealed code.toList) :
    Sealed (varStatement name code) := by
  have hplain := isPlain_binding hn (show ∀ c ∈ " = ".toList, IsPlain c from isPlain_of_all (by decide))
  have hsemicolon : ';' ∉ "var ".toList ++ name.toList ++ " = ".toList := not_mem_binding hn (by decide) (by decide)
  exact Sealed.append (closed_plain hplain) (sealed_of_not_mem hsemicolon) hs

/-- An assignment comes apart at its first equals sign. -/
theorem assignment?_append (target value : List Char) (pos : SourcePos) (ht : ∀ c ∈ target, IsPlain c)
    (hx : '=' ∉ target) (hv : value.head? ≠ some '=') :
    ∃ pos', assignment? ⟨target ++ '=' :: value, pos⟩ = some (Text.trim target, ⟨Text.trim value, pos'⟩) := by
  have hsplit : findTopLevel (target ++ '=' :: value) ['='] = some target.length := by
    rw [findTopLevel, searchTopLevel_pass ht hx, searchTopLevel_found rfl (by decide) (by simp)]
    simp
  have hnext : (target ++ '=' :: value)[target.length + 1]? ≠ some '=' := by
    rw [List.getElem?_append_right (by omega), Nat.add_sub_cancel_left, List.getElem?_cons_succ,
      ← List.head?_eq_getElem?]
    exact hv
  have hdrop : (target ++ '=' :: value).drop (target.length + 1) = value := by
    rw [List.drop_length_add_append]
    rfl
  simp only [assignment?, hsplit, Option.bind_eq_bind, Option.bind_some, hnext, if_false, List.take_left,
    Fragment.drop, Fragment.trim, hdrop]
  exact ⟨_, rfl⟩

theorem varStatement_eq (name code : String) :
    varStatement name code = "var ".toList ++ name.toList ++ " = ".toList ++ code.toList := rfl

theorem loopHeader_eq (var source : String) :
    loopHeader var source = "var ".toList ++ var.toList ++ " in ".toList ++ source.toList := rfl

/-- The statement of a variable declares it. -/
theorem codeStatement_varStatement (block : Block) (ds : Directives) (pos : SourcePos)
    (hn : Text.isName name.toList = true) (hc : IsCode code) :
    ∃ pos', codeStatement block (ds, []) ⟨varStatement name code, pos⟩ = .ok (ds, [.var name code pos']) := by
  have hplain := isPlain_binding hn (show ∀ c ∈ [' '], IsPlain c from isPlain_of_all (by decide))
  have hequals : '=' ∉ "var ".toList ++ name.toList ++ [' '] := not_mem_binding hn (by decide) (by decide)
  have htarget : Text.trim ("var ".toList ++ name.toList ++ [' ']) = "var ".toList ++ name.toList :=
    trim_between (show Text.allBlank [] = true from rfl) (by decide) (by simp) (trim_var hn)
  have hvalue : Text.trim (' ' :: code.toList) = code.toList := by
    have h := trim_between (show Text.allBlank [' '] = true by decide) (show Text.allBlank [] = true from rfl) hc.ne_nil
      hc.trimmed
    rwa [List.append_nil] at h
  have hstatement : varStatement name code = ("var ".toList ++ name.toList ++ [' ']) ++ '=' :: ' ' :: code.toList := by
    rw [varStatement_eq]
    simp
  obtain ⟨pos', hassign⟩ := assignment?_append _ (' ' :: code.toList) pos hplain hequals (by simp)
  rw [htarget, hvalue, ← hstatement] at hassign
  have hlayout : "var ".toList ++ name.toList ≠ "Layout".toList := by simp
  refine ⟨pos', ?_⟩
  simp only [codeStatement, hassign, Fragment.isBlank, hc.notBlank, Bool.false_eq_true, if_false, hlayout, afterVar?_var hn,
    hn, Bool.not_true, String.ofList_toList]
  rfl

theorem not_prefix_of_name {rest : List Char} (hn : Text.isName name.toList = true) (hi : name ≠ "in") :
    (' ' :: "in ".toList).isPrefixOf (' ' :: (name.toList ++ ' ' :: rest)) = false := by
  rw [Bool.eq_false_iff]
  intro h
  obtain ⟨after, hafter⟩ := List.isPrefixOf_iff_prefix.mp h
  have hin : "in".toList ++ ' ' :: after = name.toList ++ ' ' :: rest := (List.cons.inj hafter).2
  have hword := congrArg (List.takeWhile Text.isNameChar) hin
  have hletters : "in".toList.all Text.isNameChar = true := rfl
  rw [List.takeWhile_append_of_pos (List.all_eq_true.mp hletters),
    List.takeWhile_append_of_pos fun c hc => Text.isNameChar_of_isName hn hc] at hword
  refine hi (String.toList_inj.mp ?_)
  simpa [show Text.isNameChar ' ' = false from rfl] using hword.symm

/-- The header of a loop gives its variable and its source. -/
theorem loopHeader?_loopHeader (pos : SourcePos) (hn : Text.isName name.toList = true) (hi : name ≠ "in")
    (hc : IsCode code) : ∃ pos', loopHeader? ⟨loopHeader name code, pos⟩ = some (name.toList, ⟨code.toList, pos'⟩) := by
  have hblank : ' ' ∉ name.toList := not_mem_of_isName hn (by decide)
  have hcut : loopHeader name code = ("var ".toList ++ name.toList) ++ (" in ".toList ++ code.toList) := by
    rw [loopHeader_eq, List.append_assoc]
  have hheader : loopHeader name code =
      "var".toList ++ ' ' :: (name.toList ++ ' ' :: ("in ".toList ++ code.toList)) := by
    rw [hcut]
    simp
  have hneedle : (' ' :: "in ".toList).isPrefixOf (' ' :: ("in ".toList ++ code.toList)) = true :=
    List.isPrefixOf_iff_prefix.mpr (List.prefix_append (' ' :: "in ".toList) _)
  have hsplit : findTopLevel (loopHeader name code) " in ".toList = some ("var ".toList ++ name.toList).length := by
    rw [hheader, findTopLevel]
    show searchTopLevel (' ' :: "in ".toList) _ _ _ _ = _
    rw [searchTopLevel_pass (isPlain_of_all (by decide)) (by decide),
      searchTopLevel_plain _ (by decide) (not_prefix_of_name hn hi),
      searchTopLevel_pass (fun c => isPlain_of_isName hn) hblank,
      searchTopLevel_found rfl (by decide) hneedle]
    simp
  have hbinding : (loopHeader name code).take ("var ".toList ++ name.toList).length = "var ".toList ++ name.toList := by
    rw [hcut, List.take_left]
  have hsource : (loopHeader name code).drop (("var ".toList ++ name.toList).length + 4) = code.toList := by
    rw [hcut, List.drop_length_add_append]
    rfl
  simp only [loopHeader?, hsplit, Option.bind_eq_bind, Option.bind_some, hbinding, trim_var hn, afterVar?_var hn,
    Option.getD_some, Fragment.drop, Fragment.trim, Fragment.isBlank, hsource, hc.trimmed, hc.notBlank, hn]
  exact ⟨_, rfl⟩

end

end Stencil.Markup
