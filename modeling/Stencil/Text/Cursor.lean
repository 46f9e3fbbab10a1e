import Stencil.Text.Name
import Stencil.Text.Blank
import Stencil.Text.Position

/-!
A cursor: the unread rest of a text and the place of its first character. Every operation drops characters
from the front of the rest and moves the place over exactly what it dropped.
-/

namespace Stencil

/-- The unread rest of a text and its place. -/
structure Cursor where
  rest : List Char
  pos : SourcePos

namespace Cursor

/-- The cursor before the first character of a text. -/
def ofText (cs : List Char) : Cursor := ⟨cs, .start⟩

/-- The next character. -/
def peek? (c : Cursor) : Option Char := c.rest.head?

/-- The character after the next one. -/
def peekSecond? (c : Cursor) : Option Char := c.rest.tail.head?

/-- The next character satisfies the test. -/
def nextIs (c : Cursor) (p : Char → Bool) : Bool := c.peek?.any p

/-- The cursor after the first `n` characters. -/
def skip (c : Cursor) (n : Nat) : Cursor := ⟨c.rest.drop n, c.pos.after (c.rest.take n)⟩

/-- The cursor after the next character. -/
def next (c : Cursor) : Cursor := c.skip 1

/-- The longest run of characters that satisfy the test, and the cursor after it. -/
def takeWhile (c : Cursor) (p : Char → Bool) : List Char × Cursor :=
  (c.rest.takeWhile p, ⟨c.rest.dropWhile p, c.pos.after (c.rest.takeWhile p)⟩)

/-- The cursor after the longest run of characters that satisfy the test. -/
def skipWhile (c : Cursor) (p : Char → Bool) : Cursor := (c.takeWhile p).2

/-- The cursor after the given character, if it comes next. -/
def eat? (c : Cursor) (x : Char) : Option Cursor :=
  if c.peek? = some x then some c.next else none

/-- The cursor after the given text, if it comes next. -/
def eatText? (c : Cursor) (text : List Char) : Option Cursor :=
  if text.isPrefixOf c.rest then some (c.skip text.length) else none

/-- Spaces and tabs. -/
def isInlineBlank (x : Char) : Bool := x == ' ' || x == '\t'

/-- The cursor after the blanks that come next. -/
def skipBlanks (c : Cursor) : Cursor := c.skipWhile Text.isBlank

/-- The cursor after the spaces and tabs that come next. -/
def skipInlineBlanks (c : Cursor) : Cursor := c.skipWhile isInlineBlank

/-- The name that comes next, and the cursor after it. -/
def name? (c : Cursor) : Option (List Char × Cursor) :=
  if c.nextIs Text.isNameStart then some (c.takeWhile Text.isNameChar) else none

/-- The rest of the line without its line feed, and the cursor before the line feed. -/
def line (c : Cursor) : List Char × Cursor := c.takeWhile (· != '\n')

/-- The cursor after the rest of the line and its end, if nothing but spaces and tabs is left on the line. -/
def blankLineEnd? (c : Cursor) : Option Cursor :=
  let c := c.skipInlineBlanks
  let c := (c.eat? '\r').getD c
  match c.rest with
  | [] => some c
  | _ => c.eat? '\n'

/-- The cursor after the rest of the line if that rest is blank, else the cursor itself. -/
def dropBlankLineEnd (c : Cursor) : Cursor := c.blankLineEnd?.getD c

/-- A word ends here: no name character comes next. -/
def atWordEnd (c : Cursor) : Bool := !c.nextIs Text.isNameChar

/-- The cursor after a keyword, if it comes next as a whole word. -/
def keyword? (c : Cursor) (word : List Char) : Option Cursor :=
  (c.eatText? word).filter atWordEnd

/-! ### What the operations drop -/

/-- `d` is reached from `c` by reading `read`. -/
def Reads (c : Cursor) (read : List Char) (d : Cursor) : Prop :=
  c.rest = read ++ d.rest ∧ d.pos = c.pos.after read

namespace Reads
variable {c d e : Cursor} {r s : List Char}

theorem refl (c : Cursor) : Reads c [] c := ⟨rfl, rfl⟩

theorem trans (h₁ : Reads c r d) (h₂ : Reads d s e) : Reads c (r ++ s) e :=
  ⟨by rw [h₁.1, h₂.1, List.append_assoc], by rw [h₂.2, h₁.2, SourcePos.after_append]⟩

end Reads

theorem reads_skip (c : Cursor) (n : Nat) : Reads c (c.rest.take n) (c.skip n) :=
  ⟨(List.take_append_drop n c.rest).symm, rfl⟩

theorem reads_takeWhile (c : Cursor) (p : Char → Bool) : Reads c (c.takeWhile p).1 (c.takeWhile p).2 :=
  ⟨List.takeWhile_append_dropWhile.symm, rfl⟩

theorem reads_cons (x : Char) (xs : List Char) (p : SourcePos) :
    Reads ⟨x :: xs, p⟩ [x] ⟨xs, p.next x⟩ := ⟨rfl, rfl⟩

theorem reads_of_eatText? {c d : Cursor} {text : List Char} (h : c.eatText? text = some d) :
    Reads c text d := by
  unfold eatText? at h
  split at h
  · rename_i hp
    obtain ⟨r, hr⟩ := List.isPrefixOf_iff_prefix.mp hp
    cases h
    have := reads_skip c text.length
    rwa [← hr, List.take_left] at this
  · cases h

/-- What comes next is the character that was peeked at. -/
theorem rest_of_peek? {c : Cursor} {x : Char} (h : c.peek? = some x) : c.rest = x :: c.next.rest := by
  obtain ⟨rest, pos⟩ := c
  cases rest with
  | nil => cases h
  | cons y ys =>
    cases h
    rfl

theorem peek?_eq {c : Cursor} {x : Char} {tail : List Char} (h : c.rest = x :: tail) : c.peek? = some x := by
  rw [peek?, h]
  rfl

theorem reads_of_peek? {c : Cursor} {x : Char} (h : c.peek? = some x) : c.Reads [x] c.next := by
  refine ⟨rest_of_peek? h, ?_⟩
  show c.pos.after (c.rest.take 1) = _
  rw [rest_of_peek? h]
  rfl

end Cursor

end Stencil
