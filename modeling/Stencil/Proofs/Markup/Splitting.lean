import Stencil.Proofs.Markup.Delimiting

/-! Cutting a region at its semicolons, and searching the pieces.

The inner text of a region is closed, so reading it character by character never closes a bracket that it has not
opened, and the depth of a split or a search is the number of brackets that are open. The pieces between the semicolons
at depth zero are closed again, and a search of a piece finds what stands at depth zero first. -/

namespace Stencil.Markup

/-- The texts of pieces, each with the semicolon that ends it. -/
def ended (fs : List Fragment) : List Char := fs.flatMap fun f => f.text ++ [';']

theorem ended_cons (f : Fragment) (fs : List Fragment) : ended (f :: fs) = f.text ++ ';' :: ended fs := by
  rw [ended, List.flatMap_cons, List.append_assoc, List.singleton_append]
  rfl

section
variable {start : SourcePos} {w : List Char} {fs before after : List Fragment} {g : Fragment}

theorem Pieces.ne_nil (h : Pieces start w fs) : fs ≠ [] := by
  cases h <;> exact List.cons_ne_nil _ _

/-- The pieces joined by semicolons are the code again. -/
theorem Pieces.intercalate (h : Pieces start w fs) : [';'].intercalate (fs.map (·.text)) = w := by
  induction h with
  | last => exact List.intercalate_singleton
  | @cons start w rest fs _ _ hr ih =>
    obtain ⟨f, fs, rfl⟩ := List.exists_cons_of_ne_nil hr.ne_nil
    rw [List.map_cons] at ih
    rw [List.map_cons, List.map_cons, List.intercalate_cons_cons, ih, List.append_assoc, List.singleton_append]

/-- Each piece is closed and has no semicolon at depth zero, and it starts where reading what stands before it leads. -/
theorem Pieces.piece (h : Pieces start w (before ++ g :: after)) :
    Closed g.text ∧ Sealed g.text ∧ ended before ++ g.text <+: w ∧ g.start = start.after (ended before) := by
  induction before generalizing start w with
  | nil =>
    cases h with
    | last hc hs => exact ⟨hc, hs, List.prefix_rfl, rfl⟩
    | cons hc hs _ => exact ⟨hc, hs, List.prefix_append _ _, rfl⟩
  | cons f before ih =>
    generalize hfs : f :: before ++ g :: after = fs at h
    cases h with
    | last => simp at hfs
    | cons hc hs hr =>
      obtain ⟨rfl, rfl⟩ := List.cons.inj hfs
      obtain ⟨hclosed, hsealed, hin, hstart⟩ := ih hr
      refine ⟨hclosed, hsealed, ?_, ?_⟩
      · rw [ended_cons, List.append_assoc, List.cons_append]
        exact (List.prefix_append_right_inj _).mpr (List.cons_prefix_cons.mpr ⟨rfl, hin⟩)
      · rw [hstart, ended_cons, ← SourcePos.after_append, List.append_assoc, List.singleton_append]

end

/-- A needle that has a first character, none of its characters a bracket or a quote, starts outside brackets and
literals wherever it stands behind closed code. -/
theorem startsAt_iff {needle text : List Char} (hn : ∀ x ∈ needle, IsPlain x) (hne : needle ≠ []) (n : Nat) :
    Scan.StartsAt {} needle text n ↔ Closed (text.take n) ∧ needle <+: text.drop n := by
  constructor
  · rintro ⟨hout, -, hstarts⟩
    exact ⟨hout, hstarts⟩
  · rintro ⟨hout, hstarts⟩
    refine ⟨hout, ?_, hstarts⟩
    obtain ⟨x, xs, rfl⟩ := List.exists_cons_of_ne_nil hne
    obtain ⟨rest, hrest⟩ := hstarts
    refine ⟨x, ?_, hn x List.mem_cons_self⟩
    rw [← List.head?_drop, ← hrest]
    rfl

/-- Splitting the inner text of a region loses nothing: the pieces joined by semicolons are the text again. No piece
has a semicolon at depth zero outside literals, each is well nested, and it starts where reading what stands before it
leads. A search of a piece for a needle without brackets and quotes gives the first index at which the needle starts
outside brackets and literals, or nothing if there is none. A needle that is not empty starts wherever it stands at
depth zero outside literals; the empty one starts at each character there that is no bracket or quote itself. -/
theorem splitStatements_of_balanced {c d : Cursor} {f : Fragment} (h : balanced c = .ok (f, d)) :
    [';'].intercalate ((splitStatements f).map (·.text)) = f.text ∧
    ∀ before g after, splitStatements f = before ++ g :: after →
      Sealed g.text ∧ WellNested g.text ∧ ended before ++ g.text <+: f.text ∧ g.start = f.start.after (ended before) ∧
      ∀ needle, (∀ x ∈ needle, IsPlain x) →
        IsFirst (Scan.StartsAt {} needle g.text) (findTopLevel g.text needle) ∧
        (needle ≠ [] → ∀ n, Scan.StartsAt {} needle g.text n ↔ Closed (g.text.take n) ∧ needle <+: g.text.drop n) := by
  obtain ⟨hclosed, -⟩ := balanced_eq_ok h
  have hpieces := pieces_splitStatements hclosed
  refine ⟨hpieces.intercalate, fun before g after hsplit => ?_⟩
  obtain ⟨hg, hsealed, hin, hstart⟩ := Pieces.piece (hsplit ▸ hpieces)
  refine ⟨hsealed, hg.wellNested, hin, hstart, fun needle hn => ⟨isFirst_findTopLevel hg needle, fun hne n => ?_⟩⟩
  exact startsAt_iff hn hne n

/-- Two statements, with a semicolon in a literal of the first one and one between brackets of the second one. -/
theorem splitStatements_of_balanced_assignments :
    ∃ f d g, balanced (.ofText "\x7ba = \";\";\n b = f(c;d)\x7d".toList) = .ok (f, d) ∧
      splitStatements f = [⟨"a = \";\"".toList, ⟨1, 2⟩⟩] ++ g :: [] ∧
      [';'].intercalate ((splitStatements f).map (·.text)) = f.text ∧
      g.text = "\n b = f(c;d)".toList ∧ Sealed g.text ∧ WellNested g.text ∧
      g.start = SourcePos.after ⟨1, 2⟩ "a = \";\";".toList ∧
      (∀ x ∈ ['='], IsPlain x) ∧ ['='] ≠ [] ∧ IsFirst (Scan.StartsAt {} ['='] g.text) (some 4) ∧
      Closed (g.text.take 4) := by
  have hregion : balanced (.ofText "\x7ba = \";\";\n b = f(c;d)\x7d".toList) =
      .ok (⟨"a = \";\";\n b = f(c;d)".toList, ⟨1, 2⟩⟩, ⟨[], ⟨2, 13⟩⟩) := rfl
  have hsplit : splitStatements ⟨"a = \";\";\n b = f(c;d)".toList, ⟨1, 2⟩⟩ =
      [⟨"a = \";\"".toList, ⟨1, 2⟩⟩] ++ ⟨"\n b = f(c;d)".toList, ⟨1, 10⟩⟩ :: [] := rfl
  have hequals : ∀ x ∈ ['='], IsPlain x := isPlain_of_all (by decide)
  obtain ⟨hjoin, hpieces⟩ := splitStatements_of_balanced hregion
  obtain ⟨hsealed, hnested, -, hstart, hsearch⟩ := hpieces _ _ _ hsplit
  obtain ⟨hfirst, hplain⟩ := hsearch ['='] hequals
  have hfound : IsFirst (Scan.StartsAt {} ['='] "\n b = f(c;d)".toList) (some 4) := hfirst
  exact ⟨_, _, _, hregion, hsplit, hjoin, rfl, hsealed, hnested, hstart, hequals, by decide, hfound,
    ((hplain (by decide) 4).mp hfound.1).1⟩

end Stencil.Markup
