import Stencil.Json.Parser
import Stencil.Json.Printer
import Stencil.Proofs.Json.Literal
import Stencil.Proofs.Json.Numeral

/-! Reading back the text of a value.

Both ways of writing give the same tokens, and the tokens of a value are read as its draft: the value itself,
but for arrays and objects that nest too deep and numbers that come back as none. -/

namespace Stencil.Json

/-! ### Drafts and tokens of values -/

mutual

/-- What the text of a value is read as where arrays and objects may nest `room` deep. -/
def draft : Json → Nat → Draft
  | null, _ => .null
  | bool b, _ => .bool b
  | number n, _ => .ofNumber n.reread?
  | string s, _ => .string s
  | array _, 0 => .unusable
  | array items, room + 1 => .array (draftItems items room)
  | object _, 0 => .unusable
  | object members, room + 1 => .object (draftMembers members room)

/-- What items are read as. -/
def draftItems : List Json → Nat → List Draft
  | [], _ => []
  | v :: vs, room => v.draft room :: draftItems vs room

/-- What members are read as. -/
def draftMembers : List (String × Json) → Nat → List (String × Draft)
  | [], _ => []
  | (name, v) :: rest, room => (name, v.draft room) :: draftMembers rest room

end

/-- Runs of tokens with a comma between them. -/
def separated : List (List Token) → List Token
  | [] => []
  | [ts] => ts
  | ts :: rest => ts ++ .comma :: separated rest

theorem separated_cons_cons (ts us : List Token) (rest : List (List Token)) :
    separated (ts :: us :: rest) = ts ++ .comma :: separated (us :: rest) := rfl

mutual

/-- The tokens of a value. -/
def tokens : Json → List Token
  | null => [.atom .null]
  | bool b => [.atom (.bool b)]
  | number n => [.atom (.ofNumber n.reread?)]
  | string s => [.string (some s)]
  | array items => .openArray :: (separated (tokensItems items) ++ [.closeArray])
  | object members => .openObject :: (separated (tokensMembers members) ++ [.closeObject])

/-- The tokens of items. -/
def tokensItems : List Json → List (List Token)
  | [] => []
  | v :: vs => v.tokens :: tokensItems vs

/-- The tokens of members. -/
def tokensMembers : List (String × Json) → List (List Token)
  | [] => []
  | (name, v) :: rest => (.string (some name) :: .colon :: v.tokens) :: tokensMembers rest

end

theorem draftItems_eq_map (vs : List Json) (room : Nat) : draftItems vs room = vs.map (·.draft room) := by
  induction vs with
  | nil => rfl
  | cons v vs ih => rw [draftItems, ih, List.map_cons]

theorem draftMembers_eq_map (ms : List (String × Json)) (room : Nat) :
    draftMembers ms room = ms.map fun m => (m.1, m.2.draft room) := by
  induction ms with
  | nil => rfl
  | cons m ms ih => rw [draftMembers, ih, List.map_cons]

/-! ### From tokens to drafts -/

/-- A value may come next. -/
inductive ExpectsValue : Expected → Prop
  | value : ExpectsValue .value
  | firstItem : ExpectsValue .firstItem

/-- The name of a member may come next. -/
inductive ExpectsName : Expected → Prop
  | name : ExpectsName .name
  | firstName : ExpectsName .firstName

namespace Reading

variable {limit : Nat}

theorem close_eq_put (stack : List Frame) (d : Draft) :
    close limit stack d = put stack (if stack.length < limit then d else .unusable) := by
  have h : (stack.take limit).length < limit ↔ stack.length < limit := by
    rw [List.length_take]
    omega
  simp only [close, h]

theorem step_startValue {e : Expected} (he : ExpectsValue e) {t : Token} (ht : t ≠ .closeArray)
    (stack : List Frame) : step limit ⟨stack, e⟩ t = startValue stack t := by
  cases he with
  | value => cases t <;> rfl
  | firstItem => cases t <;> first | rfl | exact absurd rfl ht

theorem step_name {e : Expected} (he : ExpectsName e) (name : Option String)
    (done : List (Option String × Draft)) (stack : List Frame) :
    step limit ⟨.members done :: stack, e⟩ (.string name) = some ⟨.member done name :: stack, .colon⟩ := by
  cases he <;> rfl

theorem step_colon (stack : List Frame) : step limit ⟨stack, .colon⟩ .colon = some ⟨stack, .value⟩ := rfl

theorem step_comma_items (done : List Draft) (stack : List Frame) :
    step limit ⟨.items done :: stack, .separator⟩ .comma = some ⟨.items done :: stack, .value⟩ := rfl

theorem step_comma_members (done : List (Option String × Draft)) (stack : List Frame) :
    step limit ⟨.members done :: stack, .separator⟩ .comma = some ⟨.members done :: stack, .name⟩ := rfl

/-- An array ends after its last item, or at once. -/
theorem step_closeArray {e : Expected} {done : List Draft} (he : e = .separator ∨ (e = .firstItem ∧ done = []))
    (stack : List Frame) : step limit ⟨.items done :: stack, e⟩ .closeArray =
      put stack (if stack.length < limit then .array done.reverse else .unusable) := by
  rcases he with rfl | ⟨rfl, rfl⟩
  · exact close_eq_put stack _
  · exact close_eq_put stack _

/-- An object ends after its last member, or at once. -/
theorem step_closeObject {e : Expected} {done : List (Option String × Draft)}
    (he : e = .separator ∨ (e = .firstName ∧ done = [])) (stack : List Frame) :
    step limit ⟨.members done :: stack, e⟩ .closeObject =
      put stack (if stack.length < limit then .ofMembers done.reverse else .unusable) := by
  rcases he with rfl | ⟨rfl, rfl⟩
  · exact close_eq_put stack _
  · exact close_eq_put stack _

end Reading

theorem ofMembers_some (members : List (String × Draft)) :
    Draft.ofMembers (members.map fun m => (some m.1, m.2)) = .object members := by
  have h (f : Option String × Draft → Option (String × Draft)) (hf : ∀ m, f (some m.1, m.2) = some m) :
      (members.map fun m => (some m.1, m.2)).mapM f = some members := by
    induction members with
    | nil => rfl
    | cons m ms ih => simp [hf, ih]
  rw [Draft.ofMembers, h _ fun _ => rfl]

open Reading in
mutual

/-- The tokens of a value are read as its draft. -/
theorem foldlM_tokens (limit : Nat) : (v : Json) → (e : Expected) → ExpectsValue e → (stack : List Frame) →
    v.tokens.foldlM (step limit) ⟨stack, e⟩ = put stack (v.draft (limit - stack.length))
  | null, e, he, stack | bool b, e, he, stack | number n, e, he, stack | string s, e, he, stack => by
    simp only [tokens, List.foldlM_cons, List.foldlM_nil, draft]
    rw [step_startValue he (by simp)]
    simp [startValue, Draft.ofString]
  | array items, e, he, stack => by
    obtain ⟨e', hfold, he'⟩ := foldlM_tokensItems limit items .firstItem .firstItem [] stack
    rw [tokens, List.foldlM_cons, step_startValue he (by simp)]
    simp only [startValue, Option.bind_eq_bind, Option.bind_some, List.foldlM_append, hfold, List.foldlM_cons,
      List.foldlM_nil]
    rw [step_closeArray (he'.imp_right fun h => ⟨h.2, by simp [h.1, draftItems]⟩)]
    rcases hroom : limit - stack.length with _ | room
    · rw [if_neg (by omega), draft]
      cases put stack .unusable <;> rfl
    · rw [if_pos (by omega), draft, show limit - (stack.length + 1) = room by omega]
      simp
  | object members, e, he, stack => by
    obtain ⟨e', hfold, he'⟩ := foldlM_tokensMembers limit members .firstName .firstName [] stack
    rw [tokens, List.foldlM_cons, step_startValue he (by simp)]
    simp only [startValue, Option.bind_eq_bind, Option.bind_some, List.foldlM_append, hfold, List.foldlM_cons,
      List.foldlM_nil]
    rw [step_closeObject (he'.imp_right fun h => ⟨h.2, by simp [h.1, draftMembers]⟩)]
    rcases hroom : limit - stack.length with _ | room
    · rw [if_neg (by omega), draft]
      cases put stack .unusable <;> rfl
    · rw [if_pos (by omega), draft, show limit - (stack.length + 1) = room by omega]
      simp [ofMembers_some]

/-- The tokens of items are read one item after the other. -/
theorem foldlM_tokensItems (limit : Nat) : (vs : List Json) → (e : Expected) → ExpectsValue e →
    (done : List Draft) → (stack : List Frame) →
    ∃ e', (separated (tokensItems vs)).foldlM (step limit) ⟨.items done :: stack, e⟩ =
      some ⟨.items ((draftItems vs (limit - (stack.length + 1))).reverse ++ done) :: stack, e'⟩ ∧
      (e' = .separator ∨ (vs = [] ∧ e' = e))
  | [], e, he, done, stack => ⟨e, rfl, .inr ⟨rfl, rfl⟩⟩
  | [v], e, he, done, stack => by
    refine ⟨.separator, ?_, .inl rfl⟩
    simp only [tokensItems, separated, foldlM_tokens limit v e he, put, draftItems]
    rfl
  | v :: w :: vs, e, he, done, stack => by
    obtain ⟨e', ih, he'⟩ :=
      foldlM_tokensItems limit (w :: vs) .value .value (v.draft (limit - (stack.length + 1)) :: done) stack
    refine ⟨e', ?_, .inl (he'.resolve_right fun h => absurd h.1 (by simp))⟩
    rw [tokensItems, tokensItems, separated_cons_cons, ← tokensItems, List.foldlM_append, foldlM_tokens limit v e he]
    simp only [put, List.foldlM_cons, Option.bind_eq_bind, Option.bind_some, step_comma_items, List.length_cons, ih]
    simp [draftItems]

/-- The tokens of members are read one member after the other. -/
theorem foldlM_tokensMembers (limit : Nat) : (ms : List (String × Json)) → (e : Expected) → ExpectsName e →
    (done : List (Option String × Draft)) → (stack : List Frame) →
    ∃ e', (separated (tokensMembers ms)).foldlM (step limit) ⟨.members done :: stack, e⟩ =
      some ⟨.members (((draftMembers ms (limit - (stack.length + 1))).map fun m => (some m.1, m.2)).reverse ++
        done) :: stack, e'⟩ ∧
      (e' = .separator ∨ (ms = [] ∧ e' = e))
  | [], e, he, done, stack => ⟨e, rfl, .inr ⟨rfl, rfl⟩⟩
  | [(name, v)], e, he, done, stack => by
    refine ⟨.separator, ?_, .inl rfl⟩
    simp only [tokensMembers, separated, List.foldlM_cons, step_name he, Option.bind_eq_bind, Option.bind_some,
      step_colon, foldlM_tokens limit v .value .value, put, draftMembers]
    rfl
  | (name, v) :: (name', w) :: ms, e, he, done, stack => by
    obtain ⟨e', ih, he'⟩ := foldlM_tokensMembers limit ((name', w) :: ms) .name .name
      ((some name, v.draft (limit - (stack.length + 1))) :: done) stack
    refine ⟨e', ?_, .inl (he'.resolve_right fun h => absurd h.1 (by simp))⟩
    rw [tokensMembers, tokensMembers, separated_cons_cons, ← tokensMembers, List.cons_append, List.cons_append, List.foldlM_cons,
      step_name he, Option.bind_eq_bind, Option.bind_some, List.foldlM_cons, step_colon, Option.bind_eq_bind,
      Option.bind_some, List.foldlM_append, foldlM_tokens limit v .value .value]
    simp only [put, List.foldlM_cons, Option.bind_eq_bind, Option.bind_some, step_comma_members, List.length_cons, ih]
    simp [draftMembers]

end

/-- The tokens of a whole value spell its draft. -/
theorem ofTokens?_tokens (limit : Nat) (v : Json) : Draft.ofTokens? limit v.tokens = some (v.draft limit) := by
  have h := foldlM_tokens limit v .value .value []
  rw [List.length_nil, Nat.sub_zero] at h
  rw [Draft.ofTokens?, h]
  rfl

/-! ### From texts to tokens -/

/-- Reading a text takes tokens from its front and goes on with the rest. -/
def Scanned (cs : List Char) (ts : List Token) (rest : List Char) : Prop :=
  ∀ fuel done, cs.length ≤ fuel →
    ∃ fuel', rest.length ≤ fuel' ∧ readTokens? fuel done cs = readTokens? fuel' (ts.reverse ++ done) rest

namespace Scanned

variable {cs ds rest : List Char} {ts us : List Token} {c : Char} {t : Token}

theorem refl (cs : List Char) : Scanned cs [] cs := fun fuel _ hf => ⟨fuel, hf, rfl⟩

theorem trans (h : Scanned cs ts ds) (h' : Scanned ds us rest) : Scanned cs (ts ++ us) rest := by
  intro fuel done hf
  obtain ⟨fuel', hf', heq⟩ := h fuel done hf
  obtain ⟨fuel'', hf'', heq'⟩ := h' fuel' _ hf'
  exact ⟨fuel'', hf'', by rw [heq, heq', List.reverse_append, List.append_assoc]⟩

theorem gap (hc : isGap c = true) (rest : List Char) : Scanned (c :: rest) [] rest := by
  intro fuel done hf
  rcases fuel with _ | fuel
  · exact absurd hf (by simp)
  · exact ⟨fuel, by simpa using hf, by simp [readTokens?, hc]⟩

theorem token (hc : isGap c = false) (hr : readToken? c cs = some (t, rest)) (hlen : rest.length ≤ cs.length) :
    Scanned (c :: cs) [t] rest := by
  intro fuel done hf
  rcases fuel with _ | fuel
  · exact absurd hf (by simp)
  · have : cs.length ≤ fuel := by simpa using hf
    exact ⟨fuel, by omega, by simp [readTokens?, hc, hr]⟩

/-- A whole text that is taken apart gives its tokens. -/
theorem tokens?_eq (h : Scanned cs ts []) : tokens? cs = some ts := by
  obtain ⟨fuel, -, heq⟩ := h cs.length [] (le_refl _)
  rw [tokens?, heq, List.append_nil]
  cases fuel <;> simp [readTokens?]

end Scanned

/-- A text gives tokens whatever follows it, as long as that cannot go on with a number. -/
def Spells (cs : List Char) (ts : List Token) : Prop :=
  ∀ rest, EndsNumber rest → Scanned (cs ++ rest) ts rest

theorem endsNumber_cons {c : Char} (h : c.isDigit = false ∧ c ≠ '.' ∧ c ≠ 'e' ∧ c ≠ 'E') (rest : List Char) :
    EndsNumber (c :: rest) := by
  rintro d hd
  obtain rfl : c = d := by simpa using hd
  exact h

theorem scanned_mark {c : Char} {t : Token} (hc : isGap c = false) (hr : ∀ cs, readToken? c cs = some (t, cs))
    (rest : List Char) : Scanned (c :: rest) [t] rest := .token hc (hr rest) (le_refl _)

/-- A literal is read as its text. -/
theorem scanned_quoteChars (s : String) (rest : List Char) :
    Scanned (quoteChars s.toList ++ rest) [.string (some s)] rest := by
  have h : quoteChars s.toList ++ rest = '"' :: (s.toList.flatMap escapeChar ++ '"' :: rest) := by
    simp [quoteChars]
  rw [h]
  refine .token rfl ?_ (by simp; omega)
  simp [readToken?, readUnits_escaped, joinUnits?_toNat]

/-- A word is read as its value. -/
theorem scanned_word {c : Char} {cs : List Char} {d : Draft} (hc : isGap c = false)
    (hr : ∀ rest, readToken? c (cs ++ rest) = some (.atom d, rest)) (rest : List Char) :
    Scanned (c :: cs ++ rest) [.atom d] rest := .token hc (hr rest) (by simp)

/-- What starts with a sign or a digit is no word and no mark. -/
theorem readToken?_number {c : Char} (hc : c = '-' ∨ c.isDigit = true) (cs : List Char) :
    readToken? c cs = (readNumber? (c :: cs)).map fun r => (.atom (.ofNumber r.1), r.2) := by
  have hne : ∀ d : Char, d ≠ '-' → d.isDigit = false → c ≠ d := by
    rintro d hd hd' rfl
    rcases hc with rfl | hc
    · exact hd rfl
    · rw [hc] at hd'
      cases hd'
  have hword : words.find? (·.1.isPrefixOf (c :: cs)) = none := by
    have hn := hne 'n' (by decide) (by decide)
    have ht := hne 't' (by decide) (by decide)
    have hf := hne 'f' (by decide) (by decide)
    simp [words, hn.symm, ht.symm, hf.symm]
  have hatom : readAtom? (c :: cs) = (readNumber? (c :: cs)).map fun r => (.ofNumber r.1, r.2) := by
    rw [readAtom?, hword]
  rw [readToken?.eq_8 c cs (hne _ (by decide) (by decide)) (hne _ (by decide) (by decide))
    (hne _ (by decide) (by decide)) (hne _ (by decide) (by decide)) (hne _ (by decide) (by decide))
    (hne _ (by decide) (by decide)) (hne _ (by decide) (by decide)), hatom, Option.map_map]
  rfl

/-- The text of a number is read as the number that comes back from it. -/
theorem spells_number (n : Number) : Spells n.text [.atom (.ofNumber n.reread?)] := by
  intro rest hr
  obtain ⟨c, cs, htext, hc⟩ := text_head n
  have hread := n.readNumber?_text hr
  rw [htext, List.cons_append] at hread ⊢
  refine .token ?_ ?_ (by simp)
  · rcases hc with rfl | hc
    · rfl
    · simp only [isGap, Bool.or_eq_false_iff, beq_eq_false_iff_ne]
      refine ⟨⟨⟨?_, ?_⟩, ?_⟩, ?_⟩ <;> rintro rfl <;> exact absurd hc (by decide)
  · rw [readToken?_number hc, hread]
    rfl

/-! ### Pieces between brackets -/

/-- Gaps are skipped. -/
theorem scanned_gaps {gaps : List Char} (hg : ∀ c ∈ gaps, isGap c = true) (rest : List Char) :
    Scanned (gaps ++ rest) [] rest := by
  induction gaps with
  | nil => exact .refl rest
  | cons c cs ih => exact (Scanned.gap (hg c (by simp)) (cs ++ rest)).trans (ih fun d hd => hg d (by simp [hd]))

theorem endsNumber_gaps {gaps rest : List Char} (hg : ∀ c ∈ gaps, isGap c = true) (hr : EndsNumber rest) :
    EndsNumber (gaps ++ rest) := by
  cases gaps with
  | nil => exact hr
  | cons c cs =>
    have hc := hg c (by simp)
    simp only [isGap, Bool.or_eq_true, beq_iff_eq] at hc
    apply endsNumber_cons
    rcases hc with ((rfl | rfl) | rfl) | rfl <;> decide

theorem isGap_newLine (depth : Nat) : ∀ c ∈ newLine depth, isGap c = true := by
  intro c hc
  rcases List.mem_cons.mp hc with rfl | hc
  · rfl
  · rw [List.eq_of_mem_replicate hc]
    rfl

/-- The name of a member and its value give their tokens. -/
theorem spells_member {gaps cs : List Char} {ts : List Token} (hg : ∀ c ∈ gaps, isGap c = true) (name : String)
    (h : Spells cs ts) :
    Spells (quoteChars name.toList ++ ':' :: (gaps ++ cs)) (.string (some name) :: .colon :: ts) := by
  intro rest hr
  rw [List.append_assoc, List.cons_append, List.append_assoc]
  have hname := scanned_quoteChars name (':' :: (gaps ++ (cs ++ rest)))
  have hcolon : Scanned (':' :: (gaps ++ (cs ++ rest))) [.colon] (gaps ++ (cs ++ rest)) :=
    scanned_mark rfl (fun _ => rfl) _
  exact hname.trans (hcolon.trans ((scanned_gaps hg _).trans (h rest hr)))

/-- Pieces joined by a comma and gaps give the tokens of the pieces with commas between them. -/
theorem spells_joined {gaps : List Char} (hg : ∀ c ∈ gaps, isGap c = true) {pieces : List (List Char)}
    {tss : List (List Token)} (h : List.Forall₂ Spells pieces tss) :
    Spells (joined (',' :: gaps) pieces) (separated tss) := by
  induction h with
  | nil => exact fun rest _ => .refl rest
  | @cons piece ts pieces tss hpiece htail ih =>
    cases htail with
    | nil => exact hpiece
    | @cons piece' ts' pieces tss _ _ =>
      intro rest hr
      have hsep : EndsNumber (',' :: (gaps ++ (joined (',' :: gaps) (piece' :: pieces) ++ rest))) :=
        endsNumber_cons (by decide) _
      have hcomma : Scanned (',' :: (gaps ++ (joined (',' :: gaps) (piece' :: pieces) ++ rest))) [.comma]
          (gaps ++ (joined (',' :: gaps) (piece' :: pieces) ++ rest)) := scanned_mark rfl (fun _ => rfl) _
      have hall := (hpiece _ hsep).trans (hcomma.trans ((scanned_gaps hg _).trans (ih rest hr)))
      simpa [joined, separated] using hall

/-- A pair of brackets and their tokens. -/
structure Brackets (o c : Char) (first last : Token) : Prop where
  open_gap : isGap o = false
  open_token : ∀ cs, readToken? o cs = some (first, cs)
  close_gap : isGap c = false
  close_token : ∀ cs, readToken? c cs = some (last, cs)
  close_ends : c.isDigit = false ∧ c ≠ '.' ∧ c ≠ 'e' ∧ c ≠ 'E'

theorem brackets_array : Brackets '[' ']' .openArray .closeArray :=
  ⟨rfl, fun _ => rfl, rfl, fun _ => rfl, by decide⟩

theorem brackets_object : Brackets '{' '}' .openObject .closeObject :=
  ⟨rfl, fun _ => rfl, rfl, fun _ => rfl, by decide⟩

/-- What stands between brackets gives its tokens between those of the brackets. -/
theorem Brackets.spells {o c : Char} {first last : Token} (b : Brackets o c first last) {front back cs : List Char}
    {ts : List Token} (hf : ∀ c ∈ front, isGap c = true) (hb : ∀ c ∈ back, isGap c = true) (h : Spells cs ts) :
    Spells (o :: (front ++ (cs ++ (back ++ [c])))) (first :: (ts ++ [last])) := by
  intro rest _
  have hend : EndsNumber (back ++ c :: rest) := endsNumber_gaps hb (endsNumber_cons b.close_ends rest)
  have hall := (scanned_mark b.open_gap b.open_token (front ++ (cs ++ (back ++ c :: rest)))).trans
    ((scanned_gaps hf _).trans ((h _ hend).trans ((scanned_gaps hb _).trans
      (scanned_mark b.close_gap b.close_token rest))))
  simpa using hall

/-- Pieces on lines of their own give the tokens of the pieces with commas between them. -/
theorem Brackets.spells_bracketed {o c : Char} {first last : Token} (b : Brackets o c first last) (depth : Nat)
    {pieces : List (List Char)} {tss : List (List Token)} (h : List.Forall₂ Spells pieces tss) :
    Spells (bracketed o c depth pieces) (first :: (separated tss ++ [last])) := by
  unfold bracketed
  split
  · rename_i hempty
    obtain rfl := List.isEmpty_iff.mp hempty
    cases h
    have hnil : Spells [] [] := fun rest _ => .refl rest
    have hall := b.spells (List.forall_mem_nil _) (List.forall_mem_nil _) hnil
    simpa [separated] using hall
  · have hall := b.spells (isGap_newLine (depth + 1)) (isGap_newLine depth)
      (spells_joined (isGap_newLine (depth + 1)) h)
    simpa using hall

/-! ### Texts of values -/

mutual

/-- The text of a value on one line gives its tokens. -/
theorem spells_compactChars : (v : Json) → Spells v.compactChars v.tokens
  | null => fun rest _ => scanned_word rfl (fun _ => rfl) rest
  | bool true => fun rest _ => scanned_word rfl (fun _ => rfl) rest
  | bool false => fun rest _ => scanned_word rfl (fun _ => rfl) rest
  | number n => spells_number n
  | string s => fun rest _ => scanned_quoteChars s rest
  | array items => by
    have h := brackets_array.spells (List.forall_mem_nil _) (List.forall_mem_nil _)
      (spells_joined (List.forall_mem_nil _) (spells_compactItems items))
    simpa [compactChars, tokens] using h
  | object members => by
    have h := brackets_object.spells (List.forall_mem_nil _) (List.forall_mem_nil _)
      (spells_joined (List.forall_mem_nil _) (spells_compactMembers members))
    simpa [compactChars, tokens] using h

theorem spells_compactItems : (vs : List Json) → List.Forall₂ Spells (compactItems vs) (tokensItems vs)
  | [] => .nil
  | v :: vs => .cons (spells_compactChars v) (spells_compactItems vs)

theorem spells_compactMembers : (ms : List (String × Json)) →
    List.Forall₂ Spells (compactMembers ms) (tokensMembers ms)
  | [] => .nil
  | (name, v) :: ms =>
    .cons (spells_member (List.forall_mem_nil _) name (spells_compactChars v)) (spells_compactMembers ms)

end

mutual

/-- The text of a value on indented lines gives its tokens. -/
theorem spells_prettyChars : (v : Json) → (depth : Nat) → Spells (v.prettyChars depth) v.tokens
  | null, _ => fun rest _ => scanned_word rfl (fun _ => rfl) rest
  | bool true, _ => fun rest _ => scanned_word rfl (fun _ => rfl) rest
  | bool false, _ => fun rest _ => scanned_word rfl (fun _ => rfl) rest
  | number n, _ => spells_number n
  | string s, _ => fun rest _ => scanned_quoteChars s rest
  | array items, depth => brackets_array.spells_bracketed depth (spells_prettyItems items (depth + 1))
  | object members, depth => brackets_object.spells_bracketed depth (spells_prettyMembers members (depth + 1))

theorem spells_prettyItems : (vs : List Json) → (depth : Nat) →
    List.Forall₂ Spells (prettyItems depth vs) (tokensItems vs)
  | [], _ => .nil
  | v :: vs, depth => .cons (spells_prettyChars v depth) (spells_prettyItems vs depth)

theorem spells_prettyMembers : (ms : List (String × Json)) → (depth : Nat) →
    List.Forall₂ Spells (prettyMembers depth ms) (tokensMembers ms)
  | [], _ => .nil
  | (name, v) :: ms, depth =>
    have hg : ∀ c ∈ [' '], isGap c = true := List.all_eq_true.mp (by decide)
    .cons (spells_member hg name (spells_prettyChars v depth)) (spells_prettyMembers ms depth)

end

theorem Spells.parse? {s : String} {v : Json} (h : Spells s.toList v.tokens) (limit : Nat) :
    Draft.parse? limit s = some (v.draft limit) := by
  have hs := h [] endsNumber_nil
  rw [List.append_nil] at hs
  rw [Draft.parse?, hs.tokens?_eq]
  exact ofTokens?_tokens limit v

/-- The text of a value on one line is read as the draft of the value. -/
theorem parse?_compact (limit : Nat) (v : Json) : Draft.parse? limit v.compact = some (v.draft limit) := by
  apply Spells.parse?
  rw [compact, String.toList_ofList]
  exact spells_compactChars v

/-- The text of a value on indented lines is read as the draft of the value. -/
theorem parse?_pretty (limit : Nat) (v : Json) : Draft.parse? limit v.pretty = some (v.draft limit) := by
  apply Spells.parse?
  rw [pretty, String.toList_ofList]
  exact spells_prettyChars v 0

end Stencil.Json
