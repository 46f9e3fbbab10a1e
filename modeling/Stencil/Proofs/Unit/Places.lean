import Stencil.Proofs.Unit.Expressions

/-! Expressions apart from where they stand.

Tokens that differ in their places alone spell expressions that differ in their places alone, and they are read as
such. -/

namespace Stencil.Unit

open Grammar

/-- A name without its place. -/
def Named.erasePlace (n : Named) : Named := ⟨n.name, .start⟩

mutual

/-- An expression without its places. -/
def Expr.erasePlaces : Expr → Expr
  | .literal v _ => .literal v .start
  | .name n _ => .name n .start
  | .member target n => .member target.erasePlaces n.erasePlace
  | .call target args => .call target.erasePlaces (erasePlacesAll args)
  | .not e _ => .not e.erasePlaces .start
  | .binary op lhs rhs => .binary op lhs.erasePlaces rhs.erasePlaces

/-- Expressions without their places. -/
def Expr.erasePlacesAll : List Expr → List Expr
  | [] => []
  | e :: es => e.erasePlaces :: erasePlacesAll es

end

/-- The tokens are the same, perhaps at other places. -/
def SameTokens (ls ls' : List Lexeme) : Prop := ls.map (·.token) = ls'.map (·.token)

namespace SameTokens
variable {ls ls' rs rs' : List Lexeme} {l : Lexeme}

theorem cons_right (h : SameTokens ls' (l :: ls)) :
    ∃ l' rs', ls' = l' :: rs' ∧ l'.token = l.token ∧ SameTokens rs' ls := by
  obtain ⟨l', rs', rfl, hl, hs⟩ := List.map_eq_cons_iff.mp (h.trans List.map_cons)
  exact ⟨l', rs', rfl, hl, hs⟩

theorem append_right (h : SameTokens ls' (ls ++ rs)) :
    ∃ ls₁ ls₂, ls' = ls₁ ++ ls₂ ∧ SameTokens ls₁ ls ∧ SameTokens ls₂ rs :=
  List.map_eq_append_iff.mp (h.trans List.map_append)

theorem middle_right (h : SameTokens ls' (ls ++ l :: rs)) :
    ∃ ls₁ l' ls₂, ls' = ls₁ ++ l' :: ls₂ ∧ SameTokens ls₁ ls ∧ l'.token = l.token ∧ SameTokens ls₂ rs := by
  obtain ⟨ls₁, _, rfl, hs, hrest⟩ := h.append_right
  obtain ⟨l', ls₂, rfl, hl, hr⟩ := hrest.cons_right
  exact ⟨ls₁, l', ls₂, rfl, hs, hl, hr⟩

theorem nil_right (h : SameTokens ls' []) : ls' = [] := List.map_eq_nil_iff.mp h

end SameTokens

namespace Grammar

theorem IsSymbol.relocate {s : Symbol} {l l' : Lexeme} (h : IsSymbol s l) (hl : l'.token = l.token) : IsSymbol s l' :=
  Eq.trans hl h

theorem IsName.relocate {l l' : Lexeme} {n : Named} (h : IsName n l) (hl : l'.token = l.token) :
    ∃ n', IsName n' l' ∧ n'.erasePlace = n.erasePlace := by
  obtain ⟨token, pos⟩ := l'
  cases h
  cases hl
  exact ⟨⟨n.name, pos⟩, rfl, rfl⟩

theorem IsAtom.relocate {l l' : Lexeme} {e : Expr} (h : IsAtom l e) (hl : l'.token = l.token) :
    ∃ e', IsAtom l' e' ∧ e'.erasePlaces = e.erasePlaces := by
  obtain ⟨token, pos⟩ := l'
  cases h with
  | word hv =>
    cases hl
    exact ⟨_, .word hv, rfl⟩
  | name hn =>
    cases hl
    exact ⟨_, .name hn, rfl⟩
  | string s p =>
    cases hl
    exact ⟨_, .string s pos, rfl⟩
  | number n p =>
    cases hl
    exact ⟨_, .number n pos, rfl⟩

theorem IsComparison.relocate {l l' : Lexeme} {op : Ir.BinaryOp} (h : IsComparison l op) (hl : l'.token = l.token) :
    IsComparison l' op := by
  cases h with
  | equal hs => exact .equal (hs.relocate hl)
  | unequal hs => exact .unequal (hs.relocate hl)

mutual

/-- Tokens at other places spell the same expression at other places. -/
theorem IsExpr.relocate {k : Level} {ls : List Lexeme} {e : Expr} :
    IsExpr k ls e → ∀ {ls'}, SameTokens ls' ls → ∃ e', IsExpr k ls' e' ∧ e'.erasePlaces = e.erasePlaces
  | .atom ha, _, ht => by
    obtain ⟨l', rs, rfl, hl, hs⟩ := ht.cons_right
    cases hs.nil_right
    obtain ⟨e', ha', he⟩ := ha.relocate hl
    exact ⟨e', .atom ha', he⟩
  | .parens ho he hc, _, ht => by
    obtain ⟨_, _, rfl, hs, hs'⟩ := ht.append_right
    obtain ⟨o', _, rfl, ho', hls⟩ := hs.cons_right
    obtain ⟨c', _, rfl, hc', hr⟩ := hs'.cons_right
    cases hr.nil_right
    obtain ⟨e', he', heq⟩ := he.relocate hls
    exact ⟨e', .parens (ho.relocate ho') he' (hc.relocate hc'), heq⟩
  | .ofPrimary he, _, ht => by
    obtain ⟨e', he', heq⟩ := he.relocate ht
    exact ⟨e', .ofPrimary he', heq⟩
  | .member he hd hn, _, ht => by
    obtain ⟨_, d', _, rfl, hs, hd', hr⟩ := ht.middle_right
    obtain ⟨l', _, rfl, hl', hr'⟩ := hr.cons_right
    cases hr'.nil_right
    obtain ⟨e', he', heq⟩ := he.relocate hs
    obtain ⟨n', hn', hneq⟩ := hn.relocate hl'
    exact ⟨_, .member he' (hd.relocate hd') hn', by rw [Expr.erasePlaces, Expr.erasePlaces, heq, hneq]⟩
  | .call he ho ha, _, ht => by
    obtain ⟨_, o', _, rfl, hs, ho', hr⟩ := ht.middle_right
    obtain ⟨e', he', heq⟩ := he.relocate hs
    obtain ⟨es', ha', haeq⟩ := ha.relocate hr
    exact ⟨_, .call he' (ho.relocate ho') ha', by rw [Expr.erasePlaces, Expr.erasePlaces, heq, haeq]⟩
  | .ofAccess he, _, ht => by
    obtain ⟨e', he', heq⟩ := he.relocate ht
    exact ⟨e', .ofAccess he', heq⟩
  | .not hb he, _, ht => by
    obtain ⟨b', _, rfl, hb', hs⟩ := ht.cons_right
    obtain ⟨e', he', heq⟩ := he.relocate hs
    exact ⟨_, .not (hb.relocate hb') he', by rw [Expr.erasePlaces, Expr.erasePlaces, heq]⟩
  | .ofUnary he, _, ht => by
    obtain ⟨e', he', heq⟩ := he.relocate ht
    exact ⟨e', .ofUnary he', heq⟩
  | .compare hl hc he, _, ht => by
    obtain ⟨_, c', _, rfl, hs, hc', hr⟩ := ht.middle_right
    obtain ⟨d', hd', hdeq⟩ := hl.relocate hs
    obtain ⟨e', he', heq⟩ := he.relocate hr
    exact ⟨_, .compare hd' (hc.relocate hc') he', by rw [Expr.erasePlaces, Expr.erasePlaces, hdeq, heq]⟩
  | .ofEquality he, _, ht => by
    obtain ⟨e', he', heq⟩ := he.relocate ht
    exact ⟨e', .ofEquality he', heq⟩
  | .both hl hc he, _, ht => by
    obtain ⟨_, c', _, rfl, hs, hc', hr⟩ := ht.middle_right
    obtain ⟨d', hd', hdeq⟩ := hl.relocate hs
    obtain ⟨e', he', heq⟩ := he.relocate hr
    exact ⟨_, .both hd' (hc.relocate hc') he', by rw [Expr.erasePlaces, Expr.erasePlaces, hdeq, heq]⟩
  | .ofBoth he, _, ht => by
    obtain ⟨e', he', heq⟩ := he.relocate ht
    exact ⟨e', .ofBoth he', heq⟩
  | .either hl hc he, _, ht => by
    obtain ⟨_, c', _, rfl, hs, hc', hr⟩ := ht.middle_right
    obtain ⟨d', hd', hdeq⟩ := hl.relocate hs
    obtain ⟨e', he', heq⟩ := he.relocate hr
    exact ⟨_, .either hd' (hc.relocate hc') he', by rw [Expr.erasePlaces, Expr.erasePlaces, hdeq, heq]⟩

theorem IsArgs.relocate {ls : List Lexeme} {es : List Expr} :
    IsArgs ls es → ∀ {ls'}, SameTokens ls' ls →
      ∃ es', IsArgs ls' es' ∧ Expr.erasePlacesAll es' = Expr.erasePlacesAll es
  | .nil hc, _, ht => by
    obtain ⟨c', _, rfl, hc', hs⟩ := ht.cons_right
    cases hs.nil_right
    exact ⟨[], .nil (hc.relocate hc'), rfl⟩
  | .last he hc, _, ht => by
    obtain ⟨_, c', _, rfl, hs, hc', hr⟩ := ht.middle_right
    cases hr.nil_right
    obtain ⟨e', he', heq⟩ := he.relocate hs
    exact ⟨[e'], .last he' (hc.relocate hc'), congrArg (· :: []) heq⟩
  | .cons he hc ha, _, ht => by
    obtain ⟨_, c', _, rfl, hs, hc', hr⟩ := ht.middle_right
    obtain ⟨e', he', heq⟩ := he.relocate hs
    obtain ⟨es', ha', haeq⟩ := ha.relocate hr
    cases es' with
    | nil => cases haeq
    | cons f' fs' =>
      refine ⟨_, .cons he' (hc.relocate hc') ha', ?_⟩
      rw [Expr.erasePlacesAll, heq, haeq]
      rfl

end

end Grammar

end Stencil.Unit
