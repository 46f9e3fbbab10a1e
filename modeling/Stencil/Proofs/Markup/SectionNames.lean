import Stencil.Proofs.Markup.Readers

/-! The sections of a document.

A reader keeps the names of the sections that it has met and refuses a section with one of these names. A block has no
sections, so those that are met are the ones at the top level of the document. -/

namespace Stencil.Markup

/-! ### The sections met so far -/

/-- The names of the sections met so far. -/
def Progress.names (p : Progress) : List String := p.sections.map (·.1)

/-- Reading nodes has added the sections among them to those met so far, each with a new name. A block has none. -/
structure Progress.Meets (p : Progress) (top : Bool) (ns : List Node) (q : Progress) : Prop where
  names : q.names = p.names ++ sectionNames ns
  inside : top = false → sectionNames ns = []
  distinct : p.names.Nodup → q.names.Nodup

section
variable {top : Bool} {p q r : Progress} {ns ms : List Node}

theorem meets_of_names (h : q.names = p.names) (hns : sectionNames ns = []) : p.Meets top ns q where
  names := by rw [h, hns, List.append_nil]
  inside _ := hns
  distinct hp := h ▸ hp

theorem Progress.Meets.trans (h : p.Meets top ns q) (h' : q.Meets top ms r) : p.Meets top (ns ++ ms) r where
  names := by rw [h'.names, h.names, sectionNames_append, List.append_assoc]
  inside ht := by rw [sectionNames_append, h.inside ht, h'.inside ht, List.append_nil]
  distinct hp := h'.distinct (h.distinct hp)

theorem Progress.Meets.of_cursor {c : Cursor} (h : Progress.Meets { p with cursor := c } top ns q) : p.Meets top ns q :=
  ⟨h.names, h.inside, h.distinct⟩

theorem Progress.Meets.kept (h : p.Meets false ns q) : q.names = p.names := by
  rw [h.names, h.inside rfl, List.append_nil]

end

/-! ### Constructs -/

/-- A reader of blocks meets no sections in them. -/
def BodyKeeps (body : BodyReader) : Prop :=
  ∀ block p ns q, block.isTopLevel = false → body block p = .ok (ns, q) → q.names = p.names

section
variable {body : BodyReader} {block : Block} {p p' : Progress} {n : Node} {ns : List Node} {pos : SourcePos}

theorem alternatives_names (hbody : BodyKeeps body) {fuel : Nat} {bs : List Branch} {o : Option (List Node)}
    (h : alternatives body block fuel p = .ok (bs, o, p')) : p'.names = p.names := by
  induction fuel generalizing p bs o with
  | zero => cases h
  | succ fuel ih =>
    obtain ⟨cond, c, opened, c', ns, q, -, -, hns, hrest⟩ := alternatives_eq_ok h
    have hq := hbody _ _ _ _ rfl hns
    rcases hrest with ⟨-, -, rfl⟩ | ⟨d, e, bs', -, -, hrest, -⟩ | ⟨d, opened', e, ms, -, -, hms, -, -⟩
    · exact hq
    · exact (ih hrest).trans hq
    · exact (hbody _ _ _ _ rfl hms).trans hq

/-- A section is met with a name that was not met before. -/
theorem sectionBlock_meets (hbody : BodyKeeps body) (h : sectionBlock body pos block p = .ok (n, p')) :
    p.Meets block.isTopLevel [n] p' := by
  obtain ⟨htop, name, c, label, opened, c', ns, q, -, hnew, -, hns, rfl, rfl⟩ := sectionBlock_eq_ok h
  have hnames : q.names = p.names ++ [String.ofList name] := (hbody _ _ _ _ rfl hns).trans List.map_append
  refine ⟨hnames, fun ht => absurd (ht.symm.trans htop) (by decide), fun hp => ?_⟩
  show q.names.Nodup
  rw [hnames, List.nodup_append]
  refine ⟨hp, by simp, fun a ha b hb hab => hnew ?_⟩
  cases List.mem_singleton.mp hb
  exact hab ▸ ha

/-- The nodes of a code block are variables. -/
theorem codeBlock_meets {top : Bool} (h : codeBlock pos block p = .ok (ns, p')) : p.Meets top ns p' := by
  obtain ⟨inner, c, pieces, ds, -, -, hfold, rfl⟩ := codeBlock_eq_ok h
  refine meets_of_names rfl (foldlM_keeps (P := fun acc : Directives × List Node => sectionNames acc.2 = []) ?_ rfl hfold)
  intro acc statement acc' _ hacc hstatement
  obtain ⟨target, value, -, -, ⟨ds, -, rfl⟩ | ⟨name, -, rfl⟩⟩ := codeStatement_eq_ok hstatement
  · exact hacc
  · rw [sectionNames_append, hacc]
    rfl

theorem named_meets (hbody : BodyKeeps body) (h : named body pos block p = .ok (ns, p')) :
    p.Meets block.isTopLevel ns p' := by
  obtain ⟨after, rfl, hcases⟩ := named_eq_ok h
  rcases hcases with ⟨n, rfl, hn | hn | hn⟩ | ⟨rfl, hq | ⟨keyword, hq⟩⟩ | ⟨n, c, rfl, hn, rfl⟩
  · obtain ⟨fuel, bs, o, halt, rfl⟩ := ifBlock_eq_ok hn
    have hnames := alternatives_names hbody halt
    exact meets_of_names hnames rfl
  · obtain ⟨header, c, var, source, opened, c', ns, -, -, -, hns, rfl⟩ := forEachBlock_eq_ok hn
    have hnames := hbody _ _ _ _ rfl hns
    exact meets_of_names hnames rfl
  · exact (sectionBlock_meets hbody hn).of_cursor
  · obtain ⟨inner, c, pieces, ds, -, -, -, rfl⟩ := functionsBlock_eq_ok hq
    exact meets_of_names rfl rfl
  · obtain ⟨value, ds, -, -, rfl⟩ := lineDirective_eq_ok hq
    exact meets_of_names rfl rfl
  · obtain ⟨fuel, tail, -, rfl⟩ := implicitExpression_eq_ok hn
    exact meets_of_names rfl rfl

end

/-! ### Blocks and templates -/

section
variable {body : BodyReader} {block : Block} {p p' : Progress} {run : TextRun} {ns : List Node}

theorem atSign_meets (hbody : BodyKeeps body) (h : atSign body block run p = .ok (.code ns p')) :
    p.Meets block.isTopLevel ns p' := by
  rcases atSign_eq_ok h with ⟨_, _, -, hc | hc⟩ | ⟨n, c, -, hn, hc⟩ | ⟨ms, q, hns, hc⟩ | ⟨ms, q, -, hns, hc⟩
  · cases hc
  · cases hc
  · cases hc
    obtain ⟨inner, -, -, rfl⟩ := explicitExpression_eq_ok hn
    exact meets_of_names rfl rfl
  · cases hc
    exact (codeBlock_meets hns).of_cursor
  · cases hc
    exact (named_meets hbody hns).of_cursor

theorem TextRun.sectionNames_nodes (run : TextRun) : sectionNames run.nodes = [] := by
  unfold TextRun.nodes
  split <;> rfl

/-- A block adds nodes to those before it, and it meets the sections among the nodes that it adds. -/
theorem blockNodes_meets {fuel depth : Nat} {done : List Node}
    (h : blockNodes fuel block depth run done p = .ok (ns, p')) :
    ∃ ms, ns = done.reverse ++ ms ∧ p.Meets block.isTopLevel ms p' := by
  induction fuel generalizing block depth run done p ns p' with
  | zero => cases h
  | succ fuel ih =>
    have hbody : BodyKeeps (bodyReader fuel) := by
      intro b q ms q' hb hms
      obtain ⟨ms', -, hmeets⟩ := ih hms
      exact (hb ▸ hmeets).kept
    rcases blockNodes_eq_ok h with ⟨c, r, -, rfl, rfl⟩ | ⟨c, r, depth', run', -, h⟩ | ⟨ms, q, -, hms, h⟩
    · exact ⟨run.nodes, rfl, meets_of_names rfl run.sectionNames_nodes⟩
    · obtain ⟨ms, hns, hmeets⟩ := ih h
      exact ⟨ms, hns, hmeets.of_cursor⟩
    · obtain ⟨ms', rfl, hmeets⟩ := ih h
      have hread := (atSign_meets hbody hms).trans hmeets
      refine ⟨run.nodes ++ (ms ++ ms'), by simp, ?_⟩
      exact (meets_of_names rfl run.sectionNames_nodes).trans hread

end

/-- The sections of a document that is read have different names. -/
theorem sectionNames_nodup_of_parse {template text : String} {d : Document} (h : parse template text = .ok d) :
    (sectionNames d.nodes).Nodup := by
  obtain ⟨⟨ns, p⟩, hns, h⟩ := Except.bind_eq_ok.mp (eq_ok_of_mapError h)
  cases h
  obtain ⟨ms, hms, hmeets⟩ := blockNodes_meets hns
  obtain rfl : ns = ms := hms
  have hnames : p.names = sectionNames ns := hmeets.names
  exact hnames ▸ hmeets.distinct List.nodup_nil

end Stencil.Markup
