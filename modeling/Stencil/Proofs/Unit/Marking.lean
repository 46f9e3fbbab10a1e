import Stencil.Proofs.Unit.Containment
import Stencil.Proofs.Unit.Derivations

/-! The pragmas of a generated unit.

With pragmas on, a unit has the same tokens as with pragmas off, and pragmas between them. Each of these stands before a
line of its own, behind a semicolon or a brace, so that it stands where the grammar lets it stand, whatever the code of the
template is. -/

namespace Stencil.Unit

open Markup (Node Fragment)
open Grammar (IsSymbol)

/-! ### Tokens with pragmas and without -/

def Token.isPragma : Token → Bool
  | .pragma _ => true
  | _ => false

theorem Lexeme.isPragma_token (l : Lexeme) : l.token.isPragma = l.isPragma := by
  unfold Lexeme.isPragma Token.isPragma
  rfl

/-- The tokens but the pragmas. -/
def Cut.plain (c : Cut) : Cut := c.map (·.filter (!·.isPragma))

/-- No token is a pragma. -/
def Cut.Plain (c : Cut) : Prop := ∀ ts, c = some ts → ∀ t ∈ ts, t.isPragma = false

/-- The second tokens are the first ones without the pragmas, and in gaps of a kind the first ones may stand: each pragma
among them is in its place, and others may follow. -/
structure Marking (G : Gap → Prop) (on off : Cut) : Prop where
  plain : on.plain = off
  placed : ∀ {g ls rest}, G g → on.Of ls → Placed .free rest → Placed g (ls ++ rest)

/-- The tokens may begin with pragmas. -/
abbrev Loose : Cut → Cut → Prop := Marking (· = .free)

/-- The tokens begin with one that is no pragma, wherever they stand. -/
abbrev Tight : Cut → Cut → Prop := Marking fun _ => True

section
variable {G : Gap → Prop} {a a' b b' : Cut} {t : Token} {s : Symbol} {ls : List Lexeme}

theorem Cut.plain_append (a b : Cut) : (a ++ b).plain = a.plain ++ b.plain := by
  cases a with
  | none => rfl
  | some us =>
    cases b with
    | none => rfl
    | some vs => exact congrArg some (List.filter_append us vs)

theorem Cut.Plain.plain_eq (h : a.Plain) : a.plain = a := by
  cases a with
  | none => rfl
  | some ts =>
    refine congrArg some (List.filter_eq_self.mpr fun t ht => ?_)
    rw [h ts rfl t ht]
    rfl

theorem Cut.Plain.append (ha : a.Plain) (hb : b.Plain) : (a ++ b).Plain := by
  intro ts hts
  obtain ⟨us, vs, hu, hv, rfl⟩ := Cut.append_eq_some.mp hts
  exact List.forall_mem_append.mpr ⟨ha us hu, hb vs hv⟩

theorem plain_one (h : t.isPragma = false) : (Cut.one t).Plain := by
  rintro _ ⟨⟩
  exact List.forall_mem_singleton.mpr h

theorem plain_nil : Cut.nil.Plain := by
  rintro _ ⟨⟩
  exact List.forall_mem_nil _

theorem plain_word (w : String) : (word w).Plain := plain_one rfl

theorem plain_sym (s : Symbol) : (sym s).Plain := plain_one rfl

theorem Cut.Plain.of (h : a.Plain) (hls : a.Of ls) : ∀ l ∈ ls, l.isPragma = false := fun l hl =>
  l.isPragma_token ▸ h _ hls _ (List.mem_map_of_mem hl)

namespace Marking

theorem append (ha : Marking G a a') (hb : Loose b b') : Marking G (a ++ b) (a' ++ b') where
  plain := by rw [Cut.plain_append, ha.plain, hb.plain]
  placed := by
    intro g ls rest hg h hrest
    obtain ⟨us, vs, rfl, hu, hv⟩ := of_append h
    rw [List.append_assoc]
    exact ha.placed hg hu (hb.placed rfl hv hrest)

theorem mono (h : Tight a b) : Marking G a b := ⟨h.plain, fun _ => h.placed trivial⟩

/-- Tokens that are no pragmas go before what begins with a token of that kind. -/
theorem plain_append (ha : a.Plain) (hb : Tight b b') : Tight (a ++ b) (a ++ b') where
  plain := by rw [Cut.plain_append, ha.plain_eq, hb.plain]
  placed := by
    intro g ls rest _ h hrest
    obtain ⟨us, vs, rfl, hu, hv⟩ := of_append h
    have hplain := ha.of hu
    clear h hu
    induction us generalizing g with
    | nil => exact hb.placed trivial hv hrest
    | cons u us ih =>
      rw [List.cons_append, List.cons_append, placed_cons (hplain u List.mem_cons_self)]
      exact ih fun l hl => hplain l (List.mem_cons_of_mem _ hl)

theorem nil : Loose .nil .nil where
  plain := rfl
  placed := by
    rintro _ ls rest rfl h hrest
    cases of_nil h
    exact hrest

/-- Pragmas may stand behind a semicolon or a brace. -/
theorem last (h : Gap.after (.symbol s) = .free) : Tight (sym s) (sym s) where
  plain := rfl
  placed := by
    intro g ls rest _ hls hrest
    obtain ⟨l, rfl, hl⟩ := of_lastSym hls
    rw [List.singleton_append, placed_cons_symbol hl, h]
    exact hrest

theorem mark (pos : SourcePos) : Loose (markCut true pos) (markCut false pos) where
  plain := rfl
  placed := by
    rintro _ ls rest rfl h hrest
    obtain ⟨l, rfl, hl⟩ := of_one h
    rw [List.singleton_append, placed_cons_pragma (Marked.isPragma_of_token hl)]
    exact ⟨rfl, hrest⟩

theorem markOf (pos : Option SourcePos) : Loose (markOf true pos) (Unit.markOf false pos) := by
  cases pos with
  | none => exact nil
  | some pos => exact mark pos

theorem join {α : Type} {f f' : α → Cut} {xs : List α} (h : ∀ x ∈ xs, Loose (f x) (f' x)) :
    Loose (Cut.join (xs.map f)) (Cut.join (xs.map f')) := by
  induction xs with
  | nil => exact nil
  | cons x xs ih => exact (h x List.mem_cons_self).append (ih fun y hy => h y (List.mem_cons_of_mem _ hy))

/-- One more token that is no pragma. -/
theorem one_append (ht : t.isPragma = false) (hb : Tight b b') : Tight (.one t ++ b) (.one t ++ b') :=
  plain_append (plain_one ht) hb

theorem word_append {w : String} (hb : Tight b b') : Tight (word w ++ b) (word w ++ b') := one_append rfl hb

theorem sym_append (hb : Tight b b') : Tight (sym s ++ b) (sym s ++ b') := one_append rfl hb

theorem braces (h : Loose a a') : Tight (bracesCut a) (bracesCut a') := (last rfl).append (h.append (last rfl).mono)

end Marking

end

/-! ### The tokens of a unit -/

/-- The code has no pragma, where it stands on one line. -/
def Unmarked (f : Fragment) : Prop := (tokens? false (f.text.map Line.oneLine)).Plain

theorem Unmarked.code {code : String} {pos : SourcePos} (h : Unmarked ⟨code.toList, pos⟩) : (codeCut code).Plain := h

/-- Code that closes what it opens has no line of its own for a pragma. -/
theorem Enclosed.unmarked {f : Fragment} (h : Enclosed f) : Unmarked f := by
  intro ts hts t ht
  have hls : (tokens? false (f.text.map Line.oneLine)).Of (ts.map fun t => ⟨t, .start⟩) := by
    rw [Cut.Of, List.map_map, hts]
    exact congrArg some (List.map_id ts).symm
  have hnest : nest false [] (ts.map fun t => ⟨t, .start⟩) = some [] := nest_of_closed h.closed h.comment nofun hls
  have hnot := not_pragma_of_nest hnest ⟨t, .start⟩ (List.mem_map_of_mem ht)
  cases t with
  | pragma p => exact absurd rfl (hnot p)
  | name | string | number | symbol => rfl

theorem plain_dottedCut (ns : List (List Char)) : (dottedCut ns).Plain := by
  induction ns using dottedCut.induct with
  | case1 => exact plain_nil
  | case2 n => exact plain_one rfl
  | case3 n m ns ih => exact Cut.Plain.append (plain_one rfl) ((plain_sym _).append ih)

theorem plain_namesCut (ns : List String) : (namesCut ns).Plain := by
  induction ns using namesCut.induct with
  | case1 => exact plain_nil
  | case2 n => exact plain_word n
  | case3 n m ns ih => exact (plain_word n).append ((plain_sym _).append ih)

open Marking

/-- Code up to the end of its line. -/
theorem code_append {code : String} {pos : SourcePos} {b b' : Cut} (h : Unmarked ⟨code.toList, pos⟩) (hb : Tight b b') :
    Tight (codeCut code ++ b) (codeCut code ++ b') := plain_append h.code hb

mutual

/-- The pragmas of a node stand where they may. -/
theorem nodeCut_marking : (n : Node) → (∀ f ∈ codeOf n, Unmarked f) → Loose (nodeCut true n) (nodeCut false n)
  | .text _ _, _ | .sectionDef _ _ _, _ => (word_append (one_append rfl (last rfl))).mono
  | .expr _ pos, h =>
    (mark pos).append (word_append (code_append (h _ (List.mem_singleton_self _)) (last rfl))).mono
  | .var _ _ pos, h =>
    have hcode := code_append (h _ (List.mem_singleton_self _)) (last (s := .semicolon) rfl)
    (mark pos).append (word_append (word_append (sym_append hcode))).mono
  | .ifElse branches none, h => branchesCut_marking branches h (plain_word _)
  | .ifElse branches (some body), h =>
    (branchesCut_marking branches (fun f hf => h f (List.mem_append_left _ hf)) (plain_word _)).append
      (word_append (braces (nodesCut_marking body fun f hf => h f (List.mem_append_right _ (codeOfAll_subset _ hf))))).mono
  | .forEach _ _ pos body, h => by
    have hbody := nodesCut_marking body fun f hf => h f (List.mem_cons_of_mem _ (codeOfAll_subset _ hf))
    have hsource := code_append (h _ List.mem_cons_self) (sym_append (s := .closeParen) (braces hbody))
    exact (mark pos).append (word_append (sym_append (word_append (word_append (word_append hsource))))).mono

theorem nodesCut_marking : (ns : List Node) → (∀ f ∈ codeOfAll ns, Unmarked f) → Loose (nodesCut true ns) (nodesCut false ns)
  | [], _ => nil
  | n :: ns, h => (nodeCut_marking n fun f hf => h f (List.mem_append_left _ hf)).append
      (nodesCut_marking ns fun f hf => h f (List.mem_append_right _ hf))

theorem branchesCut_marking : (bs : List Markup.Branch) → (∀ f ∈ Markup.Branch.fragmentsAll bs, Unmarked f) →
    ∀ {start : Cut}, start.Plain → Loose (branchesCut true start bs) (branchesCut false start bs)
  | [], _, _, _ => nil
  | .mk _ pos body :: rest, h, _, hstart => by
    have hbody := nodesCut_marking body fun f hf =>
      h f (List.mem_cons_of_mem _ (List.mem_append_left _ (codeOfAll_subset _ hf)))
    have hrest := branchesCut_marking rest (fun f hf => h f (List.mem_cons_of_mem _ (List.mem_append_right _ hf)))
      ((plain_word "else").append (plain_word "if"))
    have hbehind := (braces hbody).append hrest
    exact (mark pos).append
      (plain_append hstart (sym_append (code_append (h _ List.mem_cons_self) (sym_append hbehind)))).mono

end

theorem partCut_marking {p : Part} (h : ∀ f ∈ p.fragments, Unmarked f) : Loose (p.cut true) (p.cut false) := by
  cases p with
  | layout pos inherited key =>
    have hdefault : (if inherited then word "default" else Cut.nil).Plain := by
      cases inherited
      · exact plain_nil
      · exact plain_word _
    exact (Marking.markOf pos).append (plain_append hdefault (word_append (one_append rfl (last rfl)))).mono
  | function own f =>
    have hline := code_append (h _ (List.mem_singleton_self _)) (last (s := .semicolon) rfl)
    exact (Marking.markOf _).append (word_append (word_append (sym_append (plain_append (plain_namesCut f.params)
      (sym_append (sym_append hline)))))).mono
  | sectionDef name body =>
    have hbody := nodesCut_marking body fun f hf => h f (codeOfAll_subset _ hf)
    exact (word_append (one_append rfl (braces hbody))).mono
  | execute body => exact (word_append (braces (nodesCut_marking body h))).mono

/-- Without its pragmas a unit with pragmas is the unit without them, and its pragmas stand where they may. -/
theorem unitCut_marking {bases : List BaseType} {context : TypeContext} {d : Declared} {nodes : List Node}
    (h : ∀ f ∈ unitFragments d nodes, Unmarked f) :
    Loose (unitCut true bases context d nodes) (unitCut false bases context d nodes) := by
  have husings : Loose (Cut.join ((usedNamespaces bases context d).map usingCut))
      (Cut.join ((usedNamespaces bases context d).map usingCut)) :=
    join fun s _ => (word_append (plain_append (plain_dottedCut _) (last rfl))).mono
  have hparts : Loose (partsCut true (parts d nodes)) (partsCut false (parts d nodes)) :=
    join fun p hp => partCut_marking fun f hf => h f (parts_fragments hp hf)
  have hheader : ∀ {b b' : Cut}, Tight b b' → Tight (headerCut context d ++ b) (headerCut context d ++ b') := fun hb =>
    plain_append ((plain_word _).append ((plain_word _).append ((plain_word _).append ((plain_sym _).append
      ((plain_dottedCut _).append ((plain_sym _).append ((plain_dottedCut _).append (plain_sym _)))))))) hb
  have hclass := hheader ((last (s := .openBrace) rfl).append (hparts.append (last (s := .closeBrace) rfl).mono))
  have hspace := plain_append (plain_dottedCut (Text.fields '.' unitNamespace.toList))
    ((last (s := .semicolon) rfl).append (husings.append ((Marking.markOf d.headerPos).append hclass.mono)))
  exact (word_append hspace).mono

end Stencil.Unit
