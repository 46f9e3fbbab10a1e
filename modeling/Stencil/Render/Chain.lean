import Stencil.TemplateError

/-!
Render chains: the keys of the templates that are being rendered, outermost first. A chain is extended for
each layout and each partial; a layout must not be in it already, and it must not get too long.
-/

namespace Stencil

/-- The keys of the templates being rendered. -/
structure RenderChain where
  keys : List String := []
  maxDepth : Nat
deriving DecidableEq

namespace RenderChain

/-- The number of templates being rendered. -/
def depth (c : RenderChain) : Nat := c.keys.length

/-- A template with the key is being rendered. -/
def contains (c : RenderChain) (key : String) : Bool := c.keys.contains key

/-- The chain with a partial, which may occur in it already. -/
def enterPartial (c : RenderChain) (key : String) : Except TemplateError RenderChain :=
  if c.maxDepth ≤ c.depth then .error (.layoutDepthExceeded (c.keys ++ [key]) c.maxDepth)
  else .ok { c with keys := c.keys ++ [key] }

/-- The chain with a page or a layout, which must not occur in it. -/
def enter (c : RenderChain) (key : String) : Except TemplateError RenderChain :=
  if c.contains key then .error (.layoutCycle (c.keys ++ [key])) else c.enterPartial key

/-- How many more templates the chain can take. -/
def room (c : RenderChain) : Nat := c.maxDepth - c.depth

/-- Entering takes room. -/
theorem room_of_enterPartial {c d : RenderChain} {key : String} (h : c.enterPartial key = .ok d) :
    d.room + 1 = c.room := by
  unfold enterPartial at h
  split at h
  · cases h
  · cases h
    simp only [room, depth, List.length_append, List.length_singleton] at *
    omega

/-- Entering takes room. -/
theorem room_of_enter {c d : RenderChain} {key : String} (h : c.enter key = .ok d) : d.room + 1 = c.room := by
  unfold enter at h
  split at h
  · cases h
  · exact room_of_enterPartial h

end RenderChain

end Stencil
