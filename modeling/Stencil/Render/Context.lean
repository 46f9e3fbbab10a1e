import Stencil.Render.Failure
import Stencil.Text.Blank
import Stencil.Text.NameSet

/-!
The state of a render. A context is a stack of frames; a section that is defined in a frame is visible until
the frame is left. While a section renders, a ceiling hides the definitions from its own frame up to the frame
in which it renders, so that a section can hand on to one of the same name further out. The outputs that
layouts wrap form a stack of their own.
-/

namespace Stencil

/-- The action of a section, with the frame of its definition. -/
structure Entry (α : Type) where
  frame : Nat
  action : α
deriving DecidableEq

/-- Hides the definitions of the frames from one up to, but without, another. -/
structure Ceiling where
  hiddenFrom : Nat
  visibleFrom : Nat
deriving DecidableEq

/-- A frame that a ceiling does not hide. -/
def Ceiling.shows (c : Ceiling) (frame : Nat) : Bool := frame < c.hiddenFrom || c.visibleFrom ≤ frame

/-- The output that a layout wraps, with the key of its template. -/
structure Body where
  template : String
  content : String
deriving DecidableEq

/-- The state of a render. All stacks have their top in front. -/
structure Context (α : Type) where
  /-- The names that each frame defines, in increasing order. -/
  frames : List (List String) := [[]]
  /-- The entries of each name, in increasing order of the names. -/
  sections : List (String × List (Entry α)) := []
  ceilings : List Ceiling := []
  bodies : List Body := []
deriving DecidableEq

namespace Context

variable {α β : Type}

/-- The number of frames. -/
def depth (c : Context α) : Nat := c.frames.length

/-! ### Definitions -/

/-- The sections with one more entry on top of a name's entries. -/
def addEntry (name : String) (e : Entry α) : List (String × List (Entry α)) → List (String × List (Entry α))
  | [] => [(name, [e])]
  | (n, es) :: rest =>
    if name < n then (name, [e]) :: (n, es) :: rest
    else if name = n then (n, e :: es) :: rest
    else (n, es) :: addEntry name e rest

/-- The entries without those of a frame, or none if nothing is left. -/
def withoutFrame (frame : Nat) (es : List (Entry α)) : Option (List (Entry α)) :=
  match es.filter (·.frame != frame) with
  | [] => none
  | es => some es

/-- The sections without a name's entries of a frame. -/
def dropEntries (frame : Nat) (sections : List (String × List (Entry α))) (name : String) :
    List (String × List (Entry α)) :=
  sections.filterMap fun (n, es) => if n = name then (withoutFrame frame es).map (n, ·) else some (n, es)

/-- Defines a section in the top frame. A frame defines a name at most once. -/
def define (c : Context α) (name : String) (action : α) : Except ExecutionCause (Context α) :=
  if Text.allBlank name.toList then .error .invalidSectionName
  else
    let frame := c.frames.headD []
    if frame.contains name then .error (.duplicateSection name)
    else .ok { c with
      frames := Text.insertSorted name frame :: c.frames.tail
      sections := addEntry name ⟨c.depth - 1, action⟩ c.sections }

/-- The entries of a name, latest first. -/
def entries (c : Context α) (name : String) : List (Entry α) :=
  ((c.sections.find? (·.1 == name)).map (·.2)).getD []

/-- The innermost ceiling, if there is one, shows the frame. -/
def shows (c : Context α) (frame : Nat) : Bool := (c.ceilings.head?.map (·.shows frame)).getD true

/-- The latest visible entry of a name. -/
def visibleEntry? (c : Context α) (name : String) : Option (Entry α) :=
  (c.entries name).find? fun e => c.shows e.frame

/-- The action of the latest visible definition of a name. -/
def action? (c : Context α) (name : String) : Option α := (c.visibleEntry? name).map (·.action)

/-- A definition of the name is visible. -/
def isDefined (c : Context α) (name : String) : Bool := (c.visibleEntry? name).isSome

/-! ### Frames -/

/-- The context with a new frame on top. -/
def pushFrame (c : Context α) : Context α := { c with frames := [] :: c.frames }

/-- The context without its top frame and the definitions made in it. -/
def popFrame (c : Context α) : Context α :=
  match c.frames with
  | [] => c
  | frame :: outer =>
    { c with frames := outer, sections := frame.foldl (dropEntries outer.length) c.sections }

/-- The context without a number of frames. -/
def popFrames : Nat → Context α → Context α
  | 0, c => c
  | n + 1, c => popFrames n c.popFrame

/-- The lowest items of a stack. -/
def keep (n : Nat) (xs : List β) : List β := xs.drop (xs.length - n)

/-- Cutting a stack back to an earlier height gives the earlier stack. -/
theorem keep_append (xs ys : List β) : keep ys.length (xs ++ ys) = ys := by
  rw [keep, List.length_append, Nat.add_sub_cancel, List.drop_left]

theorem keep_length (xs : List β) : keep xs.length xs = xs := keep_append [] xs

/-- Cuts the stacks back to their heights in an earlier context. -/
def restore (before c : Context α) : Context α :=
  let c := popFrames (c.depth - before.depth) c
  { c with
    bodies := keep before.bodies.length c.bodies
    ceilings := keep before.ceilings.length c.ceilings }

/-- Runs something in a new frame and restores the context, whatever came out. -/
def nested (c : Context α) (inner : Context α → β × Context α) : β × Context α :=
  let (result, after) := inner c.pushFrame
  (result, restore c after)

/-! ### Rendering sections -/

/-- The context under a ceiling that hides the definitions from a frame upwards. -/
def hide (c : Context α) (frame : Nat) : Context α :=
  { c with ceilings := ⟨frame, c.depth⟩ :: c.ceilings }

/-- The context with the ceilings of an earlier one. -/
def restoreCeilings (before c : Context α) : Context α :=
  { c with ceilings := keep before.ceilings.length c.ceilings }

/-- Renders the visible definition of a name, with the definitions of its frame and above hidden; nothing if
none is visible. -/
def renderSection (c : Context α) (name : String) (render : α → Context α → β × Context α) :
    Option β × Context α :=
  match c.visibleEntry? name with
  | none => (none, c)
  | some e =>
    let (result, after) := render e.action (c.hide e.frame)
    (some result, restoreCeilings c after)

/-! ### Bodies -/

/-- The context with an output to wrap on top. -/
def pushBody (c : Context α) (b : Body) : Context α := { c with bodies := b :: c.bodies }

/-- The output on top, and the context without it. -/
def popBody? (c : Context α) : Option (Body × Context α) :=
  match c.bodies with
  | [] => none
  | b :: rest => some (b, { c with bodies := rest })

end Context

end Stencil
