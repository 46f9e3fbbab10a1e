import Mathlib.Data.List.Forall2
import Stencil.Proofs.Unit.Classes
import Stencil.Proofs.Unit.Places
import Stencil.Proofs.Unit.UnitSpelling

/-! The trees that mirror a document.

A statement mirrors a node if it is of the same kind, with the same names and texts, with expressions that the code of
the node spells, and with a body that mirrors the body of the node. The tokens that a document gives spell such
statements as soon as each piece of its code is an expression. -/

namespace Stencil.Unit

open Markup (Node Fragment)
open Grammar (IsSymbol IsWord IsName IsString IsExpr IsPath IsNames IsParams)
open Marked (IsStmt IsStmts IsBlock IsAlternatives IsBranch IsMember IsMembers IsUsings IsUnit Framed Marks)

/-! ### Statements that mirror nodes -/

mutual

/-- The statement mirrors the node: `Means` tells what its code spells, and `place` where its code stands. -/
inductive MirrorStmt (Means : List Char → Expr → Prop) (place : SourcePos → Option SourcePos) : Node → Stmt → Prop
  | text {text : String} {pos : SourcePos} : MirrorStmt Means place (.text text pos) (.write text)
  | expr {code : String} {pos : SourcePos} {e : Expr} (he : Means code.toList e) :
      MirrorStmt Means place (.expr code pos) (.emit e (place pos))
  | var {name code : String} {pos p : SourcePos} {e : Expr} (he : Means code.toList e) :
      MirrorStmt Means place (.var name code pos) (.var ⟨name, p⟩ e (place pos))
  | ifOnly {cond : String} {pos : SourcePos} {body : List Node} {rest : List Markup.Branch} {bs : List Branch}
      (hb : MirrorBranches Means place (.mk cond pos body :: rest) bs) :
      MirrorStmt Means place (.ifElse (.mk cond pos body :: rest) none) (.ifElse bs none (place pos))
  | ifElse {cond : String} {pos : SourcePos} {body otherwise : List Node} {rest : List Markup.Branch}
      {bs : List Branch} {ss : List Stmt} (hb : MirrorBranches Means place (.mk cond pos body :: rest) bs)
      (ho : MirrorStmts Means place otherwise ss) :
      MirrorStmt Means place (.ifElse (.mk cond pos body :: rest) (some otherwise)) (.ifElse bs (some ss) (place pos))
  | forEach {var source : String} {pos p : SourcePos} {body : List Node} {e : Expr} {ss : List Stmt}
      (he : Means source.toList e) (hb : MirrorStmts Means place body ss) :
      MirrorStmt Means place (.forEach var source pos body) (.forEach ⟨var, p⟩ e ss (place pos))
  | sectionDef {name : String} {pos p : SourcePos} {body : List Node} :
      MirrorStmt Means place (.sectionDef name pos body) (.defineSection ⟨name, p⟩)

/-- The branches mirror the alternatives, one for one. -/
inductive MirrorBranches (Means : List Char → Expr → Prop) (place : SourcePos → Option SourcePos) :
    List Markup.Branch → List Branch → Prop
  | nil : MirrorBranches Means place [] []
  | cons {cond : String} {pos : SourcePos} {body : List Node} {rest : List Markup.Branch} {e : Expr} {ss : List Stmt}
      {bs : List Branch} (he : Means cond.toList e) (hb : MirrorStmts Means place body ss)
      (hr : MirrorBranches Means place rest bs) : MirrorBranches Means place (.mk cond pos body :: rest) (.mk e ss :: bs)

/-- The statements mirror the nodes, one for one. -/
inductive MirrorStmts (Means : List Char → Expr → Prop) (place : SourcePos → Option SourcePos) :
    List Node → List Stmt → Prop
  | nil : MirrorStmts Means place [] []
  | cons {n : Node} {ns : List Node} {s : Stmt} {ss : List Stmt} (hn : MirrorStmt Means place n s)
      (hs : MirrorStmts Means place ns ss) : MirrorStmts Means place (n :: ns) (s :: ss)

end

/-! ### Tokens at places -/

/-- These tokens, at some places. -/
def Cut.Of (c : Cut) (ls : List Lexeme) : Prop := c = some (ls.map (·.token))

section
variable {a b c : Cut} {ls : List Lexeme} {w : String} {s : Symbol} {pragmas : Bool} {pos : SourcePos}

theorem of_append (h : (a ++ b).Of ls) : ∃ us vs, ls = us ++ vs ∧ a.Of us ∧ b.Of vs := by
  obtain ⟨ts, rs, ha, hb, hts⟩ := Cut.append_eq_some.mp h
  obtain ⟨us, vs, rfl, rfl, rfl⟩ := List.map_eq_append_iff.mp hts
  exact ⟨us, vs, rfl, ha, hb⟩

theorem of_nil (h : Cut.nil.Of ls) : ls = [] := List.map_eq_nil_iff.mp (Option.some.inj h).symm

theorem of_one {t : Token} (h : (Cut.one t).Of ls) : ∃ l, ls = [l] ∧ l.token = t := by
  obtain ⟨l, hl, ht⟩ := List.map_eq_singleton_iff.mp (Option.some.inj h).symm
  exact ⟨l, hl, ht⟩

theorem of_cons {t : Token} (h : (Cut.one t ++ c).Of ls) : ∃ l rs, ls = l :: rs ∧ l.token = t ∧ c.Of rs := by
  obtain ⟨us, vs, rfl, hu, hv⟩ := of_append h
  obtain ⟨l, rfl, hl⟩ := of_one hu
  exact ⟨l, vs, rfl, hl, hv⟩

theorem of_word (h : (word w ++ c).Of ls) : ∃ k rs, ls = k :: rs ∧ IsWord w k ∧ c.Of rs := of_cons h

theorem of_name (h : (word w ++ c).Of ls) : ∃ p rs, ls = ⟨.name w, p⟩ :: rs ∧ c.Of rs := by
  obtain ⟨⟨_, p⟩, rs, rfl, rfl, hc⟩ := of_cons h
  exact ⟨p, rs, rfl, hc⟩

theorem of_sym (h : (sym s ++ c).Of ls) : ∃ l rs, ls = l :: rs ∧ IsSymbol s l ∧ c.Of rs := of_cons h

theorem of_lastSym (h : (sym s).Of ls) : ∃ l, ls = [l] ∧ IsSymbol s l := of_one h

/-- No pragma comes before the statement. -/
theorem unmarked : Marks none [] none := .nil

/-- The place that a statement takes from its own pragma. -/
def placeOf (pragmas : Bool) (pos : SourcePos) : Option SourcePos := if pragmas then some pos else none

theorem of_mark (h : (markCut pragmas pos ++ c).Of ls) :
    ∃ ms rs, ls = ms ++ rs ∧ Marks none ms (placeOf pragmas pos) ∧ c.Of rs := by
  obtain ⟨ms, rs, rfl, hm, hr⟩ := of_append h
  refine ⟨ms, rs, rfl, ?_, hr⟩
  cases pragmas with
  | false =>
    cases of_nil hm
    exact .nil
  | true =>
    obtain ⟨l, rfl, hl⟩ := of_one hm
    exact .cons hl .nil

/-! The tokens of a node, taken apart. -/

theorem of_expr {code : String} (h : (nodeCut pragmas (.expr code pos)).Of ls) :
    ∃ ms k cs l, ls = ms ++ k :: (cs ++ [l]) ∧ Marks none ms (placeOf pragmas pos) ∧ IsWord "emit" k ∧ (codeCut code).Of cs ∧
      IsSymbol .semicolon l := by
  obtain ⟨ms, _, rfl, hm, h⟩ := of_mark h
  obtain ⟨k, _, rfl, hk, h⟩ := of_word h
  obtain ⟨cs, _, rfl, hc, h⟩ := of_append h
  obtain ⟨l, rfl, hl⟩ := of_lastSym h
  exact ⟨ms, k, cs, l, rfl, hm, hk, hc, hl⟩

theorem of_var {name code : String} (h : (nodeCut pragmas (.var name code pos)).Of ls) :
    ∃ ms k p e cs l, ls = ms ++ k :: ⟨.name name, p⟩ :: e :: (cs ++ [l]) ∧ Marks none ms (placeOf pragmas pos) ∧
      IsWord "var" k ∧ IsSymbol .assign e ∧ (codeCut code).Of cs ∧ IsSymbol .semicolon l := by
  obtain ⟨ms, _, rfl, hm, h⟩ := of_mark h
  obtain ⟨k, _, rfl, hk, h⟩ := of_word h
  obtain ⟨p, _, rfl, hrest⟩ := of_name h
  obtain ⟨e, _, rfl, he, h⟩ := of_sym hrest
  obtain ⟨cs, _, rfl, hc, h⟩ := of_append h
  obtain ⟨l, rfl, hl⟩ := of_lastSym h
  exact ⟨ms, k, p, e, cs, l, rfl, hm, hk, he, hc, hl⟩

theorem of_forEach {var source : String} {body : List Node} (h : (nodeCut pragmas (.forEach var source pos body)).Of ls) :
    ∃ ms k o v p i cs c vs, ls = ms ++ k :: o :: v :: ⟨.name var, p⟩ :: i :: (cs ++ c :: vs) ∧
      Marks none ms (placeOf pragmas pos) ∧ IsWord "foreach" k ∧ IsSymbol .openParen o ∧ IsWord "var" v ∧ IsWord "in" i ∧
      (codeCut source).Of cs ∧ IsSymbol .closeParen c ∧ (bracesCut (nodesCut pragmas body)).Of vs := by
  obtain ⟨ms, _, rfl, hm, h⟩ := of_mark h
  obtain ⟨k, _, rfl, hk, h⟩ := of_word h
  obtain ⟨o, _, rfl, ho, h⟩ := of_sym h
  obtain ⟨v, _, rfl, hv, h⟩ := of_word h
  obtain ⟨p, _, rfl, hrest⟩ := of_name h
  obtain ⟨i, _, rfl, hi, h⟩ := of_word hrest
  obtain ⟨cs, _, rfl, hc, h⟩ := of_append h
  obtain ⟨c, vs, rfl, hcl, h⟩ := of_sym h
  exact ⟨ms, k, o, v, p, i, cs, c, vs, rfl, hm, hk, ho, hv, hi, hc, hcl, h⟩

/-- An alternative, and the ones after it. -/
theorem of_branch {start : Cut} {cond : String} {body : List Node} {bs : List Markup.Branch}
    (h : (branchesCut pragmas start (.mk cond pos body :: bs)).Of ls) :
    ∃ ms ks o cs c vs us, ls = ms ++ (ks ++ o :: (cs ++ c :: (vs ++ us))) ∧ Marks none ms (placeOf pragmas pos) ∧
      start.Of ks ∧ IsSymbol .openParen o ∧ (codeCut cond).Of cs ∧ IsSymbol .closeParen c ∧
      (bracesCut (nodesCut pragmas body)).Of vs ∧ (branchesCut pragmas (word "else" ++ word "if") bs).Of us := by
  obtain ⟨ms, _, rfl, hm, h⟩ := of_mark h
  obtain ⟨ks, _, rfl, hk, h⟩ := of_append h
  obtain ⟨o, _, rfl, ho, h⟩ := of_sym h
  obtain ⟨cs, _, rfl, hc, h⟩ := of_append h
  obtain ⟨c, _, rfl, hcl, h⟩ := of_sym h
  obtain ⟨vs, us, rfl, hv, h⟩ := of_append h
  exact ⟨ms, ks, o, cs, c, vs, us, rfl, hm, hk, ho, hc, hcl, hv, h⟩

end

/-! ### The statements that a document gives -/

/-- Wherever the tokens of the code stand, they are an expression that the code means. -/
def Yields (Means : List Char → Expr → Prop) (f : Fragment) : Prop :=
  ∀ ls, (tokens? false (f.text.map Line.oneLine)).Of ls → ∃ e, IsExpr .either ls e ∧ Means f.text e

/-- The code of the statement that a node becomes. The body of a section stands elsewhere. -/
def codeOf : Node → List Fragment
  | .sectionDef _ _ _ => []
  | n => n.fragments

/-- The code of the statements that nodes become. -/
def codeOfAll : List Node → List Fragment
  | [] => []
  | n :: ns => codeOf n ++ codeOfAll ns

theorem codeOf_subset (n : Node) : codeOf n ⊆ n.fragments := by
  cases n with
  | sectionDef => exact List.nil_subset _
  | text | expr | var | ifElse | forEach => exact List.Subset.refl _

theorem codeOfAll_subset (ns : List Node) : codeOfAll ns ⊆ Node.fragmentsAll ns := by
  induction ns with
  | nil => exact List.nil_subset _
  | cons n ns ih =>
    exact List.append_subset.mpr ⟨List.subset_append_of_subset_left _ (codeOf_subset n),
      List.subset_append_of_subset_right _ ih⟩

/-- What may follow the last alternative. -/
inductive Otherwise : List Lexeme → Option (List Stmt) → Prop
  | absent : Otherwise [] none
  | present {k : Lexeme} {ls : List Lexeme} {ss : List Stmt} (hk : IsWord "else" k) (hb : IsBlock none ls ss none) :
      Otherwise (k :: ls) (some ss)

section
variable {Means : List Char → Expr → Prop} {pragmas : Bool}

theorem Otherwise.alternatives {ls os : List Lexeme} {b : Branch} {otherwise : Option (List Stmt)}
    (h : Otherwise os otherwise) (hb : IsBranch none ls b none) : IsAlternatives none (ls ++ os) [b] otherwise none := by
  cases h with
  | absent =>
    rw [List.append_nil]
    exact .last hb
  | present hk ho => exact .otherwise hb .nil hk ho

theorem braces_marked {c : Cut} {ls : List Lexeme} {P : List Stmt → Prop}
    (hc : ∀ {ls}, c.Of ls → ∃ ss, IsStmts none ls ss none ∧ P ss) (h : (bracesCut c).Of ls) :
    ∃ ss, IsBlock none ls ss none ∧ P ss := by
  obtain ⟨o, _, rfl, ho, h⟩ := of_sym h
  obtain ⟨us, _, rfl, hu, h⟩ := of_append h
  obtain ⟨e, rfl, he⟩ := of_lastSym h
  obtain ⟨ss, hss, hP⟩ := hc hu
  exact ⟨ss, .mk .nil ho hss .nil he, hP⟩

mutual

/-- The tokens of a node spell a statement that mirrors it. -/
theorem node_marked {top : Bool} : (n : Node) → n.Proper top → (∀ f ∈ codeOf n, Yields Means f) → ∀ {ls},
    (nodeCut pragmas n).Of ls → ∃ s, IsStmt none ls s none ∧ MirrorStmt Means (placeOf pragmas) n s
  | .text text pos, _, _, ls, h => by
    obtain ⟨k, _, rfl, hk, h⟩ := of_word h
    obtain ⟨l, _, rfl, hl, h⟩ := of_cons h
    obtain ⟨s, rfl, hs⟩ := of_lastSym h
    exact ⟨_, .write unmarked hk hl hs, .text⟩
  | .expr code pos, _, hf, ls, h => by
    obtain ⟨ms, k, cs, s, rfl, hm, hk, hc, hs⟩ := of_expr h
    obtain ⟨e, he, hmeans⟩ := hf _ (List.mem_singleton_self _) cs hc
    exact ⟨_, .emit hm hk he hs, .expr hmeans⟩
  | .var name code pos, _, hf, ls, h => by
    obtain ⟨ms, k, p, a, cs, s, rfl, hm, hk, ha, hc, hs⟩ := of_var h
    obtain ⟨e, he, hmeans⟩ := hf _ (List.mem_singleton_self _) cs hc
    exact ⟨_, .var (n := ⟨name, p⟩) hm hk rfl ha he hs, .var hmeans⟩
  | .ifElse branches none, hp, hf, ls, h => by
    obtain ⟨cond, pos, body, rest, ms, ks, rs, bs, rfl, rfl, hm, hk, hbs, halt⟩ := branches_marked branches hp.2 hf h hp.1
    obtain ⟨k, rfl, hif⟩ := of_one hk
    have := halt [] none .absent
    rw [List.append_nil] at this
    exact ⟨_, .ifElse hm hif this, .ifOnly hbs⟩
  | .ifElse branches (some otherwise), hp, hf, ls, h => by
    obtain ⟨us, _, rfl, hu, ho⟩ := of_append h
    obtain ⟨cond, pos, body, rest, ms, ks, rs, bs, rfl, rfl, hm, hk, hbs, halt⟩ :=
      branches_marked branches hp.2.1 (fun f hm => hf f (List.mem_append_left _ hm)) hu hp.1
    obtain ⟨k, rfl, hif⟩ := of_one hk
    obtain ⟨e, vs, rfl, he, ho⟩ := of_word ho
    obtain ⟨ss, hblock, hss⟩ := braces_marked (P := MirrorStmts Means (placeOf pragmas) otherwise)
      (nodes_marked otherwise hp.2.2 fun f hm => hf f (List.mem_append_right _ (codeOfAll_subset _ hm))) ho
    -- The last block is read behind the alternatives.
    have := halt _ _ (.present he hblock)
    refine ⟨.ifElse bs (some ss) (placeOf pragmas pos), ?_, .ifElse hbs hss⟩
    simpa using IsStmt.ifElse hm hif this
  | .forEach var source pos body, hp, hf, ls, h => by
    obtain ⟨ms, k, o, v, p, i, cs, c, vs, rfl, hm, hk, ho, hv, hi, hc, hcl, h⟩ := of_forEach h
    obtain ⟨e, he, hmeans⟩ := hf _ List.mem_cons_self cs hc
    obtain ⟨ss, hblock, hss⟩ := braces_marked (P := MirrorStmts Means (placeOf pragmas) body)
      (nodes_marked body hp.2 fun f hm => hf f (List.mem_cons_of_mem _ (codeOfAll_subset _ hm))) h
    exact ⟨_, .forEach (n := ⟨var, p⟩) hm hk ho hv rfl hi he hcl hblock, .forEach hmeans hss⟩
  | .sectionDef name pos body, _, _, ls, h => by
    obtain ⟨p, _, rfl, hrest⟩ := of_name h
    obtain ⟨l, _, rfl, hl, h⟩ := of_cons hrest
    obtain ⟨s, rfl, hs⟩ := of_lastSym h
    exact ⟨_, .defineSection unmarked rfl hl hs, .sectionDef⟩

theorem nodes_marked {top : Bool} : (ns : List Node) → Node.ProperAll top ns → (∀ f ∈ codeOfAll ns, Yields Means f) → ∀ {ls},
    (nodesCut pragmas ns).Of ls → ∃ ss, IsStmts none ls ss none ∧ MirrorStmts Means (placeOf pragmas) ns ss
  | [], _, _, ls, h => by
    cases of_nil h
    exact ⟨[], .nil, .nil⟩
  | n :: ns, hp, hf, ls, h => by
    obtain ⟨us, vs, rfl, hu, hv⟩ := of_append h
    obtain ⟨s, hs, hof⟩ := node_marked n hp.1 (fun f hm => hf f (List.mem_append_left _ hm)) hu
    obtain ⟨ss, hss, hall⟩ := nodes_marked ns hp.2 (fun f hm => hf f (List.mem_append_right _ hm)) hv
    exact ⟨_, .cons hs hss, .cons hof hall⟩

theorem branches_marked : (bs : List Markup.Branch) → Markup.Branch.ProperAll bs →
    (∀ f ∈ Markup.Branch.fragmentsAll bs, Yields Means f) → ∀ {start ls}, (branchesCut pragmas start bs).Of ls → bs ≠ [] →
    ∃ cond pos body rest ms ks rs bs', bs = .mk cond pos body :: rest ∧ ls = ms ++ (ks ++ rs) ∧
      Marks none ms (placeOf pragmas pos) ∧ start.Of ks ∧ MirrorBranches Means (placeOf pragmas) bs bs' ∧
      ∀ os otherwise, Otherwise os otherwise → IsAlternatives none (rs ++ os) bs' otherwise none
  | [], _, _, start, ls, _, hne => absurd rfl hne
  | .mk cond pos body :: rest, hp, hf, start, ls, h, _ => by
    obtain ⟨ms, ks, o, cs, c, vs, us, rfl, hm, hk, ho, hc, hcl, hv, h⟩ := of_branch h
    obtain ⟨e, he, hmeans⟩ := hf _ List.mem_cons_self cs hc
    obtain ⟨ss, hblock, hss⟩ := braces_marked (P := MirrorStmts Means (placeOf pragmas) body)
      (nodes_marked body hp.1 fun f hm =>
        hf f (List.mem_cons_of_mem _ (List.mem_append_left _ (codeOfAll_subset _ hm)))) hv
    have hbranch : IsBranch none (o :: (cs ++ c :: vs)) (.mk e ss) none := .mk ho he hcl hblock
    have ih := branches_marked rest hp.2 (fun f hm => hf f (List.mem_cons_of_mem _ (List.mem_append_right _ hm))) h
    cases rest with
    | nil =>
      cases of_nil h
      refine ⟨cond, pos, body, [], ms, ks, _, _, rfl, rfl, hm, hk, .cons hmeans hss .nil, fun os otherwise hos => ?_⟩
      simpa using hos.alternatives hbranch
    | cons b rest =>
      obtain ⟨_, _, _, _, ms', ks', rs', bs', -, rfl, hm', hk', hbs', halt⟩ := ih (List.cons_ne_nil _ _)
      obtain ⟨k, _, rfl, hek, hk'⟩ := of_word hk'
      obtain ⟨i, rfl, hik⟩ := of_one hk'
      refine ⟨cond, pos, body, _, ms, ks, _, _, rfl, rfl, hm, hk, .cons hmeans hss hbs', fun os otherwise hos => ?_⟩
      simpa using IsAlternatives.cons hbranch hm' hek hik (halt os otherwise hos)

end

end

/-! ### The units that a document gives -/

section
variable {ls : List Lexeme}

theorem isPath_of_dotted {ns : List (List Char)} (hns : ns ≠ []) (h : (dottedCut ns).Of ls) :
    (∃ n, IsPath ls n ∧ n.name = String.ofList (['.'].intercalate ns)) ∧ ∀ {us : List Lexeme} {d : Lexeme} {m : Named},
      IsPath us m → IsSymbol .dot d →
        ∃ n, IsPath (us ++ d :: ls) n ∧ n.name = m.name ++ "." ++ String.ofList (['.'].intercalate ns) := by
  induction ns using dottedCut.induct generalizing ls with
  | case1 => exact absurd rfl hns
  | case2 n =>
    obtain ⟨⟨_, p⟩, rfl, rfl⟩ := of_one h
    rw [List.intercalate_singleton]
    exact ⟨⟨⟨_, p⟩, .name rfl, rfl⟩, fun hu hd => ⟨_, .dot (n := ⟨_, p⟩) hu hd rfl, rfl⟩⟩
  | case3 n m ns ih =>
    obtain ⟨p, _, rfl, hrest⟩ := of_name h
    obtain ⟨d, vs, rfl, hd, hrest⟩ := of_sym hrest
    have hjoin : ∀ s : String, s ++ "." ++ String.ofList (['.'].intercalate (n :: m :: ns)) =
        s ++ "." ++ String.ofList n ++ "." ++ String.ofList (['.'].intercalate (m :: ns)) := by
      intro s
      rw [List.intercalate_cons_cons, String.ofList_append, String.ofList_append]
      simp only [String.append_assoc]
    obtain ⟨-, hmore⟩ := ih (List.cons_ne_nil _ _) hrest
    constructor
    · obtain ⟨k, hk, hname⟩ := hmore (.name (n := ⟨String.ofList n, p⟩) rfl) hd
      refine ⟨k, hk, hname.trans ?_⟩
      rw [List.intercalate_cons_cons, String.ofList_append, String.ofList_append]
    · intro us e k hu he
      obtain ⟨j, hj, hname⟩ := hmore (.dot (n := ⟨String.ofList n, p⟩) hu he rfl) hd
      refine ⟨j, by simpa using hj, hname.trans (hjoin _).symm⟩

theorem isPath_of_pathCut {name : String} (h : (pathCut name).Of ls) : ∃ n, IsPath ls n ∧ n.name = name := by
  obtain ⟨⟨n, hn, hname⟩, -⟩ := isPath_of_dotted (Text.fields_ne_nil _ _) h
  rw [Text.intercalate_fields, String.ofList_toList] at hname
  exact ⟨n, hn, hname⟩

theorem isNames_of_namesCut {ns : List String} (hns : ns ≠ []) (h : (namesCut ns).Of ls) :
    ∃ ms, IsNames ls ms ∧ ms.map (·.name) = ns := by
  induction ns using namesCut.induct generalizing ls with
  | case1 => exact absurd rfl hns
  | case2 n =>
    obtain ⟨⟨_, p⟩, rfl, rfl⟩ := of_one h
    exact ⟨[⟨n, p⟩], .one rfl, rfl⟩
  | case3 n m ns ih =>
    obtain ⟨p, _, rfl, hrest⟩ := of_name h
    obtain ⟨c, vs, rfl, hc, hrest⟩ := of_sym hrest
    obtain ⟨ms, hms, hmap⟩ := ih (List.cons_ne_nil _ _) hrest
    exact ⟨⟨n, p⟩ :: ms, .cons rfl hc hms, by rw [List.map_cons, hmap]⟩

theorem isParams_of_namesCut {ns : List String} {c : Lexeme} (h : (namesCut ns).Of ls) (hc : IsSymbol .closeParen c) :
    ∃ ms, IsParams (ls ++ [c]) ms ∧ ms.map (·.name) = ns := by
  cases ns with
  | nil =>
    cases of_nil h
    exact ⟨[], .nil hc, rfl⟩
  | cons n ns =>
    obtain ⟨ms, hms, hmap⟩ := isNames_of_namesCut (List.cons_ne_nil _ _) h
    exact ⟨ms, .names hms hc, hmap⟩

theorem isUsings_of_join {ns : List String} (h : (Cut.join (ns.map usingCut)).Of ls) :
    ∃ ms, IsUsings none ls ms none ∧ ms.map (·.name) = ns := by
  induction ns generalizing ls with
  | nil =>
    cases of_nil h
    exact ⟨[], .nil, rfl⟩
  | cons n ns ih =>
    obtain ⟨_, rs, rfl, hu, hrest⟩ := of_append h
    obtain ⟨k, _, rfl, hk, hu⟩ := of_word hu
    obtain ⟨ps, _, rfl, hp, hu⟩ := of_append hu
    obtain ⟨s, rfl, hs⟩ := of_lastSym hu
    obtain ⟨m, hm, rfl⟩ := isPath_of_pathCut hp
    obtain ⟨ms, hms, hmap⟩ := ih hrest
    refine ⟨m :: ms, ?_, by rw [List.map_cons, hmap]⟩
    simpa using IsUsings.cons (.nil (q := none)) hk hm hs hms

theorem marks_of_markOf {pragmas : Bool} {pos : Option SourcePos} (h : (markOf pragmas pos).Of ls) :
    Marks none ls (pos.bind (placeOf pragmas)) := by
  cases pos with
  | none =>
    cases of_nil h
    exact .nil
  | some pos =>
    cases pragmas with
    | false =>
      cases of_nil h
      exact .nil
    | true =>
      obtain ⟨l, rfl, hl⟩ := of_one h
      exact .cons hl .nil

end

/-- The member is the one that is declared. -/
inductive MirrorMember (Means : List Char → Expr → Prop) (pragmas : Bool) : Part → Member → Prop
  | layout {pos : Option SourcePos} {inherited : Bool} {key : String} {p : SourcePos} :
      MirrorMember Means pragmas (.layout pos inherited key) (.layout key inherited p)
  | function {own : Bool} {f : Markup.FunctionDecl} {p : SourcePos} {params : List Named} {e : Expr}
      (hp : params.map (·.name) = f.params) (he : Means f.code.toList e) :
      MirrorMember Means pragmas (.function own f)
        (.function ⟨⟨f.name, p⟩, params, e, if own then placeOf pragmas f.pos else none⟩)
  | sectionDef {name : String} {body : List Node} {p : SourcePos} {ss : List Stmt}
      (hb : MirrorStmts Means (placeOf pragmas) body ss) :
      MirrorMember Means pragmas (.sectionDef name body) (.sectionDecl ⟨⟨name, p⟩, ss⟩)
  | execute {body : List Node} {p : SourcePos} {ss : List Stmt} (hb : MirrorStmts Means (placeOf pragmas) body ss) :
      MirrorMember Means pragmas (.execute body) (.execute ss p)

/-- The tree says what is declared, and nothing else. -/
structure MirrorTree (Means : List Char → Expr → Prop) (pragmas : Bool) (bases : List BaseType) (context : TypeContext)
    (d : Declared) (nodes : List Node) (t : Tree) : Prop where
  space : t.space = some unitNamespace
  usings : t.usings.map (·.name) = usedNamespaces bases context d
  name : t.decl.name.name = context.className.text
  base : t.decl.base.name = d.baseName context
  model : t.decl.model.name = d.modelName context
  members : List.Forall₂ (MirrorMember Means pragmas) (parts d nodes) t.decl.members

/-- The code of a member. -/
def Part.fragments : Part → List Fragment
  | layout _ _ _ => []
  | function _ f => [f.fragment]
  | sectionDef _ body => Node.fragmentsAll body
  | execute body => codeOfAll body

/-- Sections stand at the top level of the class alone. -/
def Part.Proper : Part → Prop
  | layout _ _ _ | function _ _ => True
  | sectionDef _ body => Node.ProperAll false body
  | execute body => Node.ProperAll true body

section
variable {Means : List Char → Expr → Prop} {pragmas : Bool} {ls : List Lexeme}

theorem part_marked {p : Part} (hp : p.Proper) (hf : ∀ f ∈ p.fragments, Yields Means f) (h : (p.cut pragmas).Of ls) :
    ∃ m, IsMember none ls m none ∧ MirrorMember Means pragmas p m := by
  cases p with
  | layout pos inherited key =>
    obtain ⟨ms, _, rfl, hm, h⟩ := of_append h
    obtain ⟨ds, _, rfl, hd, h⟩ := of_append h
    obtain ⟨k, _, rfl, hk, h⟩ := of_word h
    obtain ⟨l, _, rfl, hl, h⟩ := of_cons h
    obtain ⟨s, rfl, hs⟩ := of_lastSym h
    cases inherited with
    | false =>
      cases of_nil hd
      exact ⟨_, .layout (marks_of_markOf hm) hk hl hs, .layout⟩
    | true =>
      obtain ⟨d, rfl, hdefault⟩ := of_one hd
      exact ⟨_, .defaultLayout (marks_of_markOf hm) hdefault hk hl hs, .layout⟩
  | function own f =>
    obtain ⟨ms, _, rfl, hm, h⟩ := of_append h
    obtain ⟨k, _, rfl, hk, h⟩ := of_word h
    obtain ⟨p, _, rfl, hrest⟩ := of_name h
    obtain ⟨o, _, rfl, ho, h⟩ := of_sym hrest
    obtain ⟨ns, _, rfl, hn, h⟩ := of_append h
    obtain ⟨c, _, rfl, hc, h⟩ := of_sym h
    obtain ⟨a, _, rfl, ha, h⟩ := of_sym h
    obtain ⟨cs, _, rfl, hcode, h⟩ := of_append h
    obtain ⟨s, rfl, hs⟩ := of_lastSym h
    obtain ⟨params, hparams, hmap⟩ := isParams_of_namesCut hn hc
    obtain ⟨e, he, hmeans⟩ := hf _ (List.mem_singleton_self _) cs hcode
    have hmarks := marks_of_markOf hm
    have hpos : (if own then some f.pos else none : Option SourcePos).bind (placeOf pragmas) =
        if own then placeOf pragmas f.pos else none := by
      cases own <;> rfl
    rw [hpos] at hmarks
    refine ⟨_, ?_, .function (p := p) hmap hmeans⟩
    simpa using IsMember.function (n := ⟨f.name, p⟩) hmarks hk rfl ho hparams ha he hs
  | sectionDef name body =>
    obtain ⟨k, _, rfl, hk, h⟩ := of_word h
    obtain ⟨l, _, rfl, hl, h⟩ := of_cons h
    obtain ⟨ss, hblock, hss⟩ := braces_marked (nodes_marked body hp fun f hm => hf f (codeOfAll_subset _ hm)) h
    exact ⟨_, .sectionDecl unmarked hk hl hblock, .sectionDef hss⟩
  | execute body =>
    obtain ⟨k, _, rfl, hk, h⟩ := of_word h
    obtain ⟨ss, hblock, hss⟩ := braces_marked (nodes_marked body hp hf) h
    exact ⟨_, .execute unmarked hk hblock, .execute hss⟩

theorem parts_marked {ps : List Part} (hp : ∀ p ∈ ps, p.Proper) (hf : ∀ p ∈ ps, ∀ f ∈ p.fragments, Yields Means f)
    (h : (partsCut pragmas ps).Of ls) : ∃ ms, IsMembers none ls ms none ∧ List.Forall₂ (MirrorMember Means pragmas) ps ms := by
  induction ps generalizing ls with
  | nil =>
    cases of_nil h
    exact ⟨[], .nil, .nil⟩
  | cons p ps ih =>
    obtain ⟨us, vs, rfl, hu, hv⟩ := of_append h
    obtain ⟨m, hm, hof⟩ := part_marked (hp p List.mem_cons_self) (hf p List.mem_cons_self) hu
    obtain ⟨ms, hms, hall⟩ := ih (fun q hq => hp q (List.mem_cons_of_mem _ hq))
      (fun q hq => hf q (List.mem_cons_of_mem _ hq)) hv
    exact ⟨m :: ms, .cons hm hms, .cons hof hall⟩

/-- The tokens of a unit stand around those of what is declared. -/
theorem framed_of_unitCut {bases : List BaseType} {context : TypeContext} {d : Declared} {nodes : List Node}
    (h : (unitCut pragmas bases context d nodes).Of ls) :
    ∃ ps tree, Framed ps ls tree ∧ (partsCut pragmas (parts d nodes)).Of ps ∧
      ∀ ms, List.Forall₂ (MirrorMember Means pragmas) (parts d nodes) ms →
        MirrorTree Means pragmas bases context d nodes (tree ms) := by
  obtain ⟨k, _, rfl, hk, h⟩ := of_word h
  obtain ⟨ss, _, rfl, hspace, h⟩ := of_append h
  obtain ⟨s, _, rfl, hs, h⟩ := of_sym h
  obtain ⟨us, _, rfl, hu, h⟩ := of_append h
  obtain ⟨ms, _, rfl, hm, h⟩ := of_append h
  obtain ⟨hs', _, rfl, hheader, h⟩ := of_append h
  obtain ⟨o, _, rfl, ho, h⟩ := of_sym h
  obtain ⟨ps, _, rfl, hparts, h⟩ := of_append h
  obtain ⟨e, rfl, he⟩ := of_lastSym h
  obtain ⟨i, _, rfl, hi, h⟩ := of_word hheader
  obtain ⟨c, _, rfl, hc, h⟩ := of_word h
  obtain ⟨p, _, rfl, hrest⟩ := of_name h
  obtain ⟨co, _, rfl, hco, h⟩ := of_sym hrest
  obtain ⟨bs, _, rfl, hb, h⟩ := of_append h
  obtain ⟨lt, _, rfl, hlt, h⟩ := of_sym h
  obtain ⟨mos, _, rfl, hmo, h⟩ := of_append h
  obtain ⟨gt, rfl, hgt⟩ := of_lastSym h
  obtain ⟨space, hspace, hname⟩ := isPath_of_pathCut hspace
  obtain ⟨usings, husings, hnames⟩ := isUsings_of_join hu
  obtain ⟨base, hbase, hbname⟩ := isPath_of_pathCut hb
  obtain ⟨model, hmodel, hmname⟩ := isPath_of_pathCut hmo
  have hframe : Framed ps _ _ := .mk (n := ⟨context.className.text, p⟩) (.some hk hspace hs) husings (marks_of_markOf hm)
    (.hidden hi) hc rfl hco hbase hlt hmodel hgt ho he
  exact ⟨ps, _, by simpa using hframe, hparts, fun ms hall => ⟨congrArg some hname, hnames, rfl, hbname, hmname, hall⟩⟩

/-- The tokens of a unit spell the tree of what is declared. -/
theorem unit_marked {bases : List BaseType} {context : TypeContext} {d : Declared} {nodes : List Node}
    (hp : ∀ p ∈ parts d nodes, p.Proper) (hf : ∀ p ∈ parts d nodes, ∀ f ∈ p.fragments, Yields Means f)
    (h : (unitCut pragmas bases context d nodes).Of ls) :
    ∃ t, IsUnit ls t ∧ MirrorTree Means pragmas bases context d nodes t := by
  obtain ⟨ps, tree, hframe, hparts, htree⟩ := @framed_of_unitCut Means _ _ _ _ _ _ h
  obtain ⟨members, hmembers, hall⟩ := parts_marked hp hf hparts
  exact ⟨tree members, hframe.isUnit hmembers, htree members hall⟩

end

end Stencil.Unit
