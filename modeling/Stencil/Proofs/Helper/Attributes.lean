import Stencil.Helper.Library
import Stencil.Proofs.Render.Encoded

/-! What `Html.Attribute` writes.

The helper's result is markup, so nothing encodes it any more. The value of the attribute is encoded by the helper and
cannot end the attribute, whatever it is. The name is written as it is given: the result is a single attribute exactly if
the name holds no character that ends a name, or happens to spell the whole attribute itself. -/

namespace Stencil

namespace Text

/-- The characters after which a reader of markup no longer takes what it reads for the name of an attribute. -/
def endsName (c : Char) : Bool := isBlank c || ['<', '>', '=', '"', '\''].contains c

/-- No character of the name ends it. -/
def IsAttributeName (name : List Char) : Prop := ∀ c ∈ name, endsName c = false

instance (name : List Char) : Decidable (IsAttributeName name) := List.decidableBAll _ name

/-- A blank and a single attribute: a name alone, or a name with a quoted value that nothing ends before its quote and that
stands for a text. -/
inductive IsAttribute (text : String) : List Char → Prop
  | flag {blank : Char} {name : List Char} (hblank : isBlank blank = true) (hname : IsAttributeName name) :
      IsAttribute text (blank :: name)
  | valued {blank : Char} {name : List Char} {value : String} (hblank : isBlank blank = true) (hname : IsAttributeName name)
      (hfree : ∀ c ∈ value.toList, c ∉ ['<', '>', '"', '\'']) (hvalue : htmlDecode value = text) :
      IsAttribute text (blank :: name ++ '=' :: '"' :: value.toList ++ ['"'])

theorem IsAttributeName.not_mem {name : List Char} (h : IsAttributeName name) {c : Char} (hc : endsName c = true) :
    c ∉ name :=
  fun hmem => Bool.false_ne_true ((h c hmem).symm.trans hc)

/-- A name ends before the first `=`, so a value without quotes ends before the last one: both are found again. -/
theorem name_eq_of_append {n name v w : List Char} (hn : IsAttributeName n) (hv : '"' ∉ v)
    (h : n ++ '=' :: '"' :: v ++ ['"'] = name ++ '=' :: '"' :: w ++ ['"']) : n = name := by
  simp only [List.append_assoc, List.cons_append] at h
  rcases List.append_eq_append_iff.mp h with ⟨between, hname, hrest⟩ | ⟨between, rfl, hrest⟩
  · -- What the longer name has more begins with `="`, so the value would go on past a quote.
    match between with
    | [] => exact (hname.trans (List.append_nil n)).symm
    | [c] =>
      obtain ⟨-, hquote⟩ := List.cons_eq_cons.mp hrest
      exact absurd (List.cons_eq_cons.mp hquote).1 (by decide)
    | c :: d :: between =>
      obtain ⟨-, hquote⟩ := List.cons_eq_cons.mp hrest
      obtain ⟨-, hvalue⟩ := List.cons_eq_cons.mp hquote
      have hlonger : v ++ ['"'] = between ++ '=' :: '"' :: w ++ ['"'] := by
        rw [hvalue, List.append_assoc, List.cons_append, List.cons_append]
        rfl
      rw [List.append_cancel_right hlonger] at hv
      exact absurd (List.mem_append_right _ (List.mem_cons_of_mem _ List.mem_cons_self)) hv
  · match between with
    | [] => exact List.append_nil name
    | c :: between =>
      obtain ⟨rfl, -⟩ := List.cons_eq_cons.mp hrest
      exact absurd (List.mem_append_right _ List.mem_cons_self) (hn.not_mem (by decide))

/-- A text whose stand-in holds none of the encoded characters is its own stand-in. -/
theorem htmlDecodeChars_eq_self {cs : List Char} (h : ∀ c ∈ htmlDecodeChars cs, c ∉ ['&', '<', '>', '"', '\'']) :
    htmlDecodeChars cs = cs := by
  fun_induction htmlDecodeChars cs with
  | case1 => rfl
  | case2 rest _ | case3 rest _ | case4 rest _ | case5 rest _ | case6 rest _ =>
    exact absurd (by decide) (h _ List.mem_cons_self)
  | case7 c rest _ _ _ _ _ ih => rw [ih fun d hd => h d (List.mem_cons_of_mem _ hd)]

end Text

namespace Library

open Text

/-- What the helper writes for a name and a value. -/
inductive Attribute (name : String) : Json → String → Prop
  | absent {v : Json} (h : v = .null ∨ v = .bool false) : Attribute name v ""
  | flag : Attribute name (.bool true) (" " ++ name)
  | valued {v : Json} {w : String} (hnull : v ≠ .null) (hbool : ∀ b, v ≠ .bool b) (hw : Encodes (asText v) w) :
      Attribute name v (" " ++ name ++ "=\"" ++ w ++ "\"")

theorem exists_writeAttribute (name : String) (v : Json) (rest : List Json) :
    ∃ out, Attribute name v out ∧ writeAttribute (.string name :: v :: rest) = .ok (.string out) := by
  have hvalued (hnull : v ≠ .null) (hbool : ∀ b, v ≠ .bool b) :
      Attribute name v (" " ++ name ++ "=\"" ++ htmlEncode (asText v) ++ "\"") :=
    .valued hnull hbool (htmlEncode_encodes _)
  cases v with
  | null => exact ⟨_, .absent (.inl rfl), rfl⟩
  | bool b =>
    cases b with
    | false => exact ⟨_, .absent (.inr rfl), rfl⟩
    | true => exact ⟨_, .flag, rfl⟩
  | number n => exact ⟨_, hvalued (by simp) (by simp), rfl⟩
  | string s => exact ⟨_, hvalued (by simp) (by simp), rfl⟩
  | array items => exact ⟨_, hvalued (by simp) (by simp), rfl⟩
  | object members => exact ⟨_, hvalued (by simp) (by simp), rfl⟩

/-- The name alone is an attribute exactly if it is a name, or a name with the text of `true` for its value. -/
theorem isAttribute_flag_iff (name : String) :
    IsAttribute "true" (" " ++ name).toList ↔
      IsAttributeName name.toList ∨ ∃ n, IsAttributeName n ∧ name.toList = n ++ "=\"true\"".toList := by
  have hout : (" " ++ name).toList = ' ' :: name.toList := by rw [String.toList_append]; rfl
  rw [hout]
  constructor
  · generalize hcs : ' ' :: name.toList = cs
    intro h
    cases h with
    | flag _ hname => exact .inl ((List.cons_eq_cons.mp hcs).2 ▸ hname)
    | @valued _ n value _ hname _ hvalue =>
      have htrue : value.toList = "true".toList := by
        have hchars : htmlDecodeChars value.toList = "true".toList := by rw [← hvalue, htmlDecode, String.toList_ofList]
        rw [← hchars]
        exact (htmlDecodeChars_eq_self (by rw [hchars]; simp)).symm
      refine .inr ⟨n, hname, ?_⟩
      rw [List.cons_append, List.cons_append] at hcs
      rw [(List.cons_eq_cons.mp hcs).2, htrue, List.append_assoc]
      rfl
  · rintro (hname | ⟨n, hname, heq⟩)
    · exact .flag isBlank_space hname
    · have htail : "=\"true\"".toList = '=' :: '"' :: "true".toList ++ ['"'] := rfl
      rw [heq, htail, ← List.cons_append, ← List.append_assoc]
      exact .valued isBlank_space hname (by simp) (by decide)

/-- With a value behind it, a name makes an attribute exactly if it is a name. -/
theorem isAttribute_valued_iff {name text w : String} (hw : Encodes text w) :
    IsAttribute text (" " ++ name ++ "=\"" ++ w ++ "\"").toList ↔ IsAttributeName name.toList := by
  have hout : (" " ++ name ++ "=\"" ++ w ++ "\"").toList = ' ' :: (name.toList ++ '=' :: '"' :: w.toList ++ ['"']) := by
    simp only [String.toList_append, List.append_assoc]
    rfl
  rw [hout]
  constructor
  · generalize hcs : ' ' :: (name.toList ++ '=' :: '"' :: w.toList ++ ['"']) = cs
    intro h
    cases h with
    | flag _ hname =>
      refine absurd ?_ (hname.not_mem (c := '=') (by decide))
      rw [← (List.cons_eq_cons.mp hcs).2]
      exact List.mem_append_left _ (List.mem_append_right _ List.mem_cons_self)
    | valued _ hname hfree _ =>
      rw [List.cons_append, List.cons_append] at hcs
      have hquote : '"' ∉ _ := fun hmem => hfree _ hmem (by decide)
      exact name_eq_of_append hname hquote (List.cons_eq_cons.mp hcs).2.symm ▸ hname
  · intro hname
    rw [← List.cons_append, ← List.cons_append]
    exact .valued isBlank_space hname hw.free hw.decodes

/-- What is written is nothing or a single attribute exactly if the value writes nothing, or the name is one, or spells the
whole attribute. -/
theorem Attribute.single_iff {name out : String} {v : Json} (h : Attribute name v out) :
    (out = "" ∨ IsAttribute (asText v) out.toList) ↔
      (v = .null ∨ v = .bool false) ∨ IsAttributeName name.toList ∨
        v = .bool true ∧ ∃ n, IsAttributeName n ∧ name.toList = n ++ "=\"true\"".toList := by
  cases h with
  | absent hv => exact iff_of_true (.inl rfl) (.inl hv)
  | flag =>
    have htext : asText (.bool true) = "true" := by decide
    rw [htext, isAttribute_flag_iff]
    simp
  | valued hnull hbool hw =>
    rw [isAttribute_valued_iff hw]
    simp [hnull, hbool]

/-- A name with a blank in it gives an attribute more than asked for. -/
theorem writeAttribute_two :
    writeAttribute [.string "x onclick=alert(1)", .bool true] = .ok (.string " x onclick=alert(1)") ∧
      ¬IsAttribute "true" " x onclick=alert(1)".toList := by
  refine ⟨rfl, fun h => ?_⟩
  rcases (isAttribute_flag_iff "x onclick=alert(1)").mp h with hname | ⟨n, -, hspelled⟩
  · exact absurd hname (by decide)
  · exact absurd ⟨n, hspelled.symm⟩ (by decide : ¬"=\"true\"".toList <:+ "x onclick=alert(1)".toList)

end Library

variable {σ : Type}

open Library in
/-- A call of `Html.Attribute` with two arguments: a first one that is no string is refused; a string gives markup and leaves
the rest of the scene alone. The markup is empty for null and false, the name for true, and the name with the encoded text of
any other value; and it is nothing or a single attribute exactly if the value writes nothing, or the name is the name of an
attribute, or it spells the whole attribute itself. -/
theorem Machine.callHelper_attribute (m : Machine σ) (slot : Nat) (a v : Json) (scene : Scene σ) :
    ∃ h, Reference.findHelper? defaults "Html" "Attribute" = some h ∧ h.arity = .exactly 2 ∧
      ((∀ name, a ≠ .string name) →
        m.callHelper slot h [a, v] scene =
          (.error (.cause (.helperFailed (m.helperName slot) "Attribute: argument 1 must be a string")), scene)) ∧
      ∀ name, a = .string name →
        ∃ out, m.callHelper slot h [a, v] scene = (.ok (.markup out), scene) ∧ Attribute name v out ∧
          ((out = "" ∨ Text.IsAttribute (asText v) out.toList) ↔
            (v = .null ∨ v = .bool false) ∨ Text.IsAttributeName name.toList ∨
              v = .bool true ∧ ∃ n, Text.IsAttributeName n ∧ name.toList = n ++ "=\"true\"".toList) := by
  refine ⟨{ arity := .exactly 2, markup := true, run := writeAttribute }, ?_, rfl, fun ha => ?_, ?_⟩
  · rfl
  · cases a with
    | string name => exact absurd rfl (ha name)
    | null | bool _ | number _ | array _ | object _ => rfl
  · rintro name rfl
    obtain ⟨out, hout, hrun⟩ := exists_writeAttribute name v []
    refine ⟨out, ?_, hout, hout.single_iff⟩
    simp only [callHelper, hrun]
    rfl

end Stencil
