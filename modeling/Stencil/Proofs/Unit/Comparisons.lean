import Stencil.Proofs.Json.Doubles
import Stencil.Proofs.Render.Keeps
import Stencil.Proofs.Unit.Generation
import Stencil.Unit.Lowering

/-! Comparing integers.

Integers from -2^63 to 2^64 - 1 are read exactly, from a template as from a model. `==` and `!=` compare the doubles
nearest to them: integers of up to 53 bits are told apart, larger ones only if they are rounded to different doubles. -/

namespace Stencil.Unit

open Grammar

/-! ### Reading -/

section
variable {i j : Int} {ds : List Char}

theorem takeDecimal_digits {cs : List Char} (hcs : ∀ c ∈ cs, c.isDigit = true)
    (hds : ∀ d ∈ ds.head?, d.isDigit = false ∧ d ≠ '.') : takeDecimal (cs ++ ds) = cs := by
  obtain ⟨htake, hdrop⟩ := takeWhile_append_of_head (p := Char.isDigit) (fun d hd => (hds d hd).1) cs
  have hpoint : pointDigits ds = [] := by
    unfold pointDigits
    split
    · exact if_neg fun h => (hds _ rfl).2 h.1
    · rfl
  rw [takeDecimal, htake, hdrop, List.takeWhile_eq_self_iff.mpr hcs, List.dropWhile_eq_nil_iff.mpr hcs, List.nil_append,
    hpoint, List.append_nil]

theorem takeNumber_int (i : Int) (hds : ∀ d ∈ ds.head?, d.isDigit = false ∧ d ≠ '.') :
    takeNumber ((Number.int i).text ++ ds) = (Number.int i).text := by
  have hdigits : takeDecimal (Text.digitsOf i.natAbs ++ ds) = Text.digitsOf i.natAbs :=
    takeDecimal_digits (fun _ => Json.isDigit_of_mem_digitsOf) hds
  rw [Number.text]
  split
  · rw [List.cons_append, takeNumber_minus, hdigits]
  · have hminus : (Text.digitsOf i.natAbs ++ ds).head? ≠ some '-' := by
      intro h
      rw [List.head?_append_of_ne_nil _ (Json.digitsOf_ne_nil _)] at h
      exact absurd (Json.isDigit_of_mem_digitsOf (List.mem_of_head? h)) (by decide)
    rw [takeNumber_of_ne hminus, hdigits]

theorem startsNumber_int (i : Int) (ds : List Char) :
    ∃ x cs, (Number.int i).text ++ ds = x :: cs ∧ StartsNumber x cs ∧ (x = '-' ∨ x.isDigit = true) := by
  obtain ⟨d, es, hd⟩ := List.exists_cons_of_ne_nil (Json.digitsOf_ne_nil i.natAbs)
  have hdigit : d.isDigit = true := Json.isDigit_of_mem_digitsOf (n := i.natAbs) (hd ▸ List.mem_cons_self)
  rw [Number.text, hd]
  split
  · exact ⟨'-', d :: es ++ ds, rfl, by simp [StartsNumber, hdigit], .inl rfl⟩
  · exact ⟨d, es ++ ds, rfl, by simp [StartsNumber, hdigit], .inr hdigit⟩

theorem not_isNameStart_of_isDigit {c : Char} (h : c.isDigit = true) : Text.isNameStart c = false := by
  rw [Text.isNameStart, Bool.or_eq_false_iff, beq_eq_false_iff_ne]
  refine ⟨?_, ?_⟩
  · simp only [Char.isAlpha, Char.isUpper, Char.isLower, Char.isDigit, ge_iff_le, Bool.and_eq_true, decide_eq_true_eq,
      UInt32.le_iff_toNat_le, Bool.or_eq_false_iff, Bool.and_eq_false_iff, decide_eq_false_iff_not] at h ⊢
    have hupper : '9'.val.toNat < 'A'.val.toNat := by decide
    have hlower : '9'.val.toNat < 'a'.val.toNat := by decide
    omega
  · rintro rfl
    cases h

/-- An integer in range is a token of its own before anything that does not go on with it. -/
theorem tokens?_int (hlow : -2 ^ 63 ≤ i) (hhigh : i < 2 ^ 64) (hds : ∀ d ∈ ds.head?, d.isDigit = false ∧ d ≠ '.') (b : Bool) :
    tokens? b ((Number.int i).text ++ ds) = .one (.number (.int i)) ++ tokens? false ds := by
  have hread := (Number.int i).readNumber?_text Json.endsNumber_nil
  rw [List.append_nil, Number.reread?_int hlow hhigh] at hread
  have htake := takeNumber_int i hds
  have hdrop : ((Number.int i).text ++ ds).drop (Number.int i).text.length = ds := List.drop_left
  obtain ⟨x, cs, hcs, hstarts, hx⟩ := startsNumber_int i ds
  have hplain : Text.isBlank x = false ∧ x ≠ '/' ∧ x ≠ '#' ∧ x ≠ '"' ∧ Text.isNameStart x = false := by
    rcases hx with rfl | hx
    · decide
    · refine ⟨Text.not_blank_of_isDigit hx, ?_, ?_, ?_, not_isNameStart_of_isDigit hx⟩ <;> rintro rfl <;> cases hx
  obtain ⟨hblank, hslash, hhash, hquote, hname⟩ := hplain
  rw [hcs] at htake hdrop ⊢
  rw [tokens?_token hblank (fun h => hslash h.1) (fun h => hhash h.1), token?_number hname hquote hstarts, htake, hread]
  exact congrArg (Cut.one _ ++ tokens? false ·) hdrop

/-- The code that compares two integers. -/
def comparison (s : Symbol) (i j : Int) : List Char :=
  (Number.int i).text ++ ' ' :: (s.text.toList ++ ' ' :: (Number.int j).text)

theorem tokens?_comparison {s : Symbol} (hs : s = .equal ∨ s = .unequal) (hi : -2 ^ 63 ≤ i ∧ i < 2 ^ 64)
    (hj : -2 ^ 63 ≤ j ∧ j < 2 ^ 64) :
    tokens? true (comparison s i j) = .all [.number (.int i), .symbol s, .number (.int j)] := by
  have hspace {cs : List Char} : tokens? false (' ' :: cs) = tokens? false cs := tokens?_blank (by decide) (by decide)
  have hsymbol (cs : List Char) : tokens? false (s.text.toList ++ ' ' :: cs) = sym s ++ tokens? false (' ' :: cs) := by
    rcases hs with rfl | rfl
    · exact tokens?_symbol (x := '=') (by decide) rfl false
    · exact tokens?_symbol (x := '!') (by decide) rfl false
  have hlast : tokens? false (Number.int j).text = .one (.number (.int j)) := by
    have h := @tokens?_int j [] hj.1 hj.2 (fun _ h => absurd h (Option.not_mem_none _)) false
    rwa [List.append_nil, tokens?_nil, Cut.append_nil] at h
  rw [comparison, tokens?_int hi.1 hi.2 (by rintro _ ⟨⟩; decide), hspace, hsymbol, hspace, hlast]
  rfl

/-- The comparison of two integers in range is read as such. -/
theorem spelled_comparison {s : Symbol} {op : Ir.BinaryOp} (hs : s = .equal ∧ op = .eq ∨ s = .unequal ∧ op = .ne)
    (hi : -2 ^ 63 ≤ i ∧ i < 2 ^ 64) (hj : -2 ^ 63 ≤ j ∧ j < 2 ^ 64) (p q : SourcePos) :
    Spelled (comparison s i j) (.binary op (.literal (.ofInt i) p) (.literal (.ofInt j) q)) := by
  obtain ⟨ls, hls, htokens⟩ := exists_lexemes (tokens?_comparison (hs.imp And.left And.left) hi hj)
  obtain ⟨⟨_, pi⟩, _, rfl, rfl, hrest⟩ := List.map_eq_cons_iff.mp htokens
  obtain ⟨⟨_, ps⟩, _, rfl, rfl, hlast⟩ := List.map_eq_cons_iff.mp hrest
  obtain ⟨⟨_, pj⟩, rfl, rfl⟩ := List.map_eq_singleton_iff.mp hlast
  have hnumber (k : Int) (p : SourcePos) : IsExpr .unary [⟨.number (.int k), p⟩] (.literal (.ofInt k) p) :=
    .ofAccess (.ofPrimary (.atom (.number (.int k) p)))
  have hcompares : IsComparison ⟨.symbol s, ps⟩ op := by
    rcases hs with ⟨rfl, rfl⟩ | ⟨rfl, rfl⟩
    · exact .equal rfl
    · exact .unequal rfl
  have hexpr := IsExpr.ofBoth (.ofEquality (.compare (hnumber i pi) hcompares (hnumber j pj)))
  exact ⟨_, _, hls, reads_expr hexpr (Nat.lt_succ_self _) [] _ none (fun _ h => absurd h (Option.not_mem_none _)), rfl⟩

end

/-! ### Evaluating -/

/-- The expression has a value, and leads from one scene to another. -/
def Evaluates {σ : Type} (m : Machine σ) (caller : Machine.Caller σ) (locals : Locals) (e : Ir.Expr) (v : Json)
    (s t : Scene σ) : Prop :=
  ∃ a, m.eval caller locals e s = (.ok a, t) ∧ a.toJson = v

section
variable {σ : Type} {m : Machine σ} {caller : Machine.Caller σ} {locals : Locals} {l r : Ir.Expr} {v w : Json}
  {s t u : Scene σ}

theorem evaluates_literal : Evaluates m caller locals (.literal v) v s s := ⟨_, rfl, rfl⟩

theorem Evaluates.compare (hl : Evaluates m caller locals l v s t) (hr : Evaluates m caller locals r w t u) :
    Evaluates m caller locals (.binary .eq l r) (.bool (v.looselyEqual w)) s u ∧
      Evaluates m caller locals (.binary .ne l r) (.bool (!v.looselyEqual w)) s u := by
  obtain ⟨a, ha, rfl⟩ := hl
  obtain ⟨b, hb, rfl⟩ := hr
  constructor
  all_goals
    refine ⟨.value (.bool _), ?_, rfl⟩
    rw [Machine.eval, bind_run, ha]
    dsimp only
    rw [bind_run, hb]
    rfl

end

theorem looselyEqual_ofInt {i j : Int} (hi : -2 ^ 63 ≤ i ∧ i < 2 ^ 64) (hj : -2 ^ 63 ≤ j ∧ j < 2 ^ 64) :
    (Json.ofInt i).looselyEqual (.ofInt j) = decide (Double.rounded i = Double.rounded j) :=
  Double.ofInt_beq (by omega) (by omega)

/-- The comparison of two integers is read and lowered with the integers as they are written. It tells, as does one of
any expressions with these values, whether the doubles nearest to the integers are the same: so integers of up to 53 bits
are told apart, and those that are not differ by no more than 2048. -/
theorem compares_rounded {i j : Int} (hi : -2 ^ 63 ≤ i ∧ i < 2 ^ 64) (hj : -2 ^ 63 ≤ j ∧ j < 2 ^ 64) :
    (∀ p q, Spelled (comparison .equal i j) (.binary .eq (.literal (.ofInt i) p) (.literal (.ofInt j) q)) ∧
      Spelled (comparison .unequal i j) (.binary .ne (.literal (.ofInt i) p) (.literal (.ofInt j) q))) ∧
    (∀ sc locals op p q findings,
      lowerExpr sc locals (.binary op (.literal (.ofInt i) p) (.literal (.ofInt j) q)) findings =
        (.binary op (.literal (.ofInt i)) (.literal (.ofInt j)), findings)) ∧
    (∀ {σ : Type} (m : Machine σ) caller locals l r s t u, Evaluates m caller locals l (.ofInt i) s t →
      Evaluates m caller locals r (.ofInt j) t u →
      Evaluates m caller locals (.binary .eq l r) (.bool (decide (Double.rounded i = Double.rounded j))) s u ∧
      Evaluates m caller locals (.binary .ne l r) (.bool (!decide (Double.rounded i = Double.rounded j))) s u) ∧
    (i.natAbs ≤ 2 ^ 53 → j.natAbs ≤ 2 ^ 53 → (Double.rounded i = Double.rounded j ↔ i = j)) ∧
    (Double.rounded i = Double.rounded j → (i - j).natAbs ≤ 2048) := by
  refine ⟨fun p q => ⟨spelled_comparison (.inl ⟨rfl, rfl⟩) hi hj p q, spelled_comparison (.inr ⟨rfl, rfl⟩) hi hj p q⟩,
    fun _ _ _ _ _ _ => rfl, ?_, ?_, Double.near_of_rounded_eq (by omega) (by omega)⟩
  · intro σ m caller locals l r s t u hl hr
    have h := hl.compare hr
    rwa [looselyEqual_ofInt hi hj] at h
  · intro hi hj
    rw [Double.rounded_of_natAbs_le hi, Double.rounded_of_natAbs_le hj]

/-- The least positive integers that are not told apart. -/
theorem compares_rounded_odd :
    Spelled (comparison .equal 9007199254740993 9007199254740992)
      (.binary .eq (.literal (.ofInt 9007199254740993) .start) (.literal (.ofInt 9007199254740992) .start)) ∧
    ∀ (m : Machine Unit) s, Evaluates m none []
      (.binary .eq (.literal (.ofInt 9007199254740993)) (.literal (.ofInt 9007199254740992))) (.bool true) s s := by
  have hrounded : Double.rounded 9007199254740993 = Double.rounded 9007199254740992 := by decide +kernel
  obtain ⟨hspelled, -, hvalue, -⟩ :=
    @compares_rounded 9007199254740993 9007199254740992 ⟨by decide, by decide⟩ ⟨by decide, by decide⟩
  refine ⟨(hspelled .start .start).1, fun m s => ?_⟩
  have h := (hvalue m none [] _ _ s s s evaluates_literal evaluates_literal).1
  rwa [decide_eq_true hrounded] at h

end Stencil.Unit
