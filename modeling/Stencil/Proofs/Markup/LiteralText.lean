import Stencil.Proofs.Markup.Stages

/-! Templates that are literal text.

A text in which each at sign is doubled is a template without code: it is read as one node with the text, or as no node
if the text is empty. -/

namespace Stencil.Markup

/-- The text with each at sign doubled. -/
def doubleAt (cs : List Char) : List Char := cs.flatMap fun c => if c = '@' then ['@', '@'] else [c]

/-- The template that stands for a text. -/
def literalTemplate (s : String) : String := String.ofList (doubleAt s.toList)

/-- A text without at signs is its own template. -/
theorem literalTemplate_of_not_mem {s : String} (h : '@' ∉ s.toList) : literalTemplate s = s := by
  have hdouble : ∀ cs : List Char, '@' ∉ cs → doubleAt cs = cs := by
    intro cs hcs
    induction cs with
    | nil => rfl
    | cons c cs ih =>
      have hc : c ≠ '@' := fun hc => hcs (hc ▸ List.mem_cons_self)
      show (if c = '@' then ['@', '@'] else [c]) ++ doubleAt cs = c :: cs
      rw [if_neg hc, ih fun h => hcs (List.mem_cons_of_mem _ h)]
      rfl
  rw [literalTemplate, hdouble _ h, String.ofList_toList]

/-- The runs of literal text in the template of a text: the text itself, or none if it is empty. -/
def textRuns (s : String) : List String := if s.toList = [] then [] else [s]

theorem join_textRuns (s : String) : String.join (textRuns s) = s := by
  rw [textRuns]
  split
  · rename_i h
    rw [String.toList_eq_nil_iff.mp h]
    rfl
  · simp

/-- The template of a text has the text and nothing else. -/
theorem parse_literalTemplate (key s : String) :
    ∃ pos, parse key (literalTemplate s) = .ok ⟨(textRuns s).map (.text · pos), {}⟩ := by
  have hleads := leads_text (s := .start (doubleAt s.toList)) (List.append_nil _).symm
    (show Block.topLevel.Deepens 0 s.toList 0 from ⟨rfl, rfl⟩)
  obtain ⟨t, ⟨-, htext, hdone, hp⟩, hread⟩ := ofChars_of_leads hleads fun t ht => ht.2.2.2.rest
  have hnodes : t.nodes = (textRuns s).map (.text · t.text.pos) := by
    rw [Stage.nodes, TextRun.closing, hdone, TextRun.nodes, htext, textRuns]
    by_cases hs : s.toList = [] <;> simp [Stage.start, hs]
  refine ⟨t.text.pos, ?_⟩
  rw [parse, literalTemplate, String.toList_ofList, hread, hnodes, hp.directives]
  rfl

end Stencil.Markup
