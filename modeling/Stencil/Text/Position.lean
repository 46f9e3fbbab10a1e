/-!
Places in a text. A place is a line and a column, both counted from one; a column counts code points.
Reading a line feed starts the next line, reading anything else moves one column on.
-/

namespace Stencil

/-- A place in a text. -/
structure SourcePos where
  line : Nat
  column : Nat
deriving DecidableEq, Inhabited

namespace SourcePos

/-- The place of the first character of a text. -/
def start : SourcePos := ⟨1, 1⟩

/-- The place reached by reading one character. -/
def next (p : SourcePos) (c : Char) : SourcePos :=
  if c = '\n' then ⟨p.line + 1, 1⟩ else ⟨p.line, p.column + 1⟩

/-- The place reached by reading a text. -/
def after (p : SourcePos) (cs : List Char) : SourcePos :=
  cs.foldl next p

/-- The wording of a place in messages. -/
def describe (p : SourcePos) : String :=
  s!"line {p.line}, column {p.column}"

/-! ### Reading a text piece by piece -/

@[simp] theorem after_nil (p : SourcePos) : p.after [] = p := rfl

@[simp] theorem after_cons (p : SourcePos) (c : Char) (cs : List Char) :
    p.after (c :: cs) = (p.next c).after cs := rfl

@[simp] theorem after_append (p : SourcePos) (cs ds : List Char) :
    p.after (cs ++ ds) = (p.after cs).after ds :=
  List.foldl_append

theorem next_newline (p : SourcePos) : p.next '\n' = ⟨p.line + 1, 1⟩ := rfl

theorem next_of_ne (p : SourcePos) {c : Char} (h : c ≠ '\n') : p.next c = ⟨p.line, p.column + 1⟩ :=
  if_neg h

end SourcePos

end Stencil
