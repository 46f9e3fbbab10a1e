import Stencil.Proofs.Engine.Invalidation
import Stencil.Proofs.Engine.Turns

/-! The chain of a page and its layouts.

Each template names the layout that it follows, so the layouts of a page are a walk from key to key. If nothing else fails,
the walk alone tells how the render ends: it comes back to a key, or it gets longer than chains may be, or it stops at a
template without a layout to follow. Whatever else is rendered, no chain gets longer than that. -/

namespace Stencil

/-! ### Chains -/

namespace RenderChain

end RenderChain

namespace Engine

variable {e : Engine}

/-! ### The length of chains -/

/-- Rendering that does something else for templates whose chain is longer than a limit. -/
def upTo (limit : Nat) (other render : Renderer) : Renderer := fun t modelType model chain role =>
  if chain.keys.length ≤ limit then render t modelType model chain role else other t modelType model chain role

section
variable {render render' : Renderer} {chain : RenderChain}
  (h : ∀ key inner, chain.enterPartial key = .ok inner → ∀ t modelType model role,
    render t modelType model inner role = render' t modelType model inner role)
include h

end

/-- The key of the layout that is followed after a number of others, from the page with a key on, given what the template
with each key is compiled to. The page itself has the number zero. -/
def layoutAt (compiled : String → CompiledTemplate) (page : String) : Nat → Option String
  | 0 => some page
  | i + 1 => (layoutAt compiled page i).bind fun key => layoutToFollow (compiled key) (if i = 0 then .page else .layout)

/-- The keys of a page and of the layouts that are followed from it in turn, as far as the list goes. -/
def Trail (compiled : String → CompiledTemplate) (page : String) (keys : List String) : Prop :=
  ∀ i < keys.length, keys[i]? = layoutAt compiled page i

namespace Trail

variable {compiled : String → CompiledTemplate} {page : String} {keys keys' : List String} {key : String}

theorem start : Trail compiled page [page] := fun i hi => by
  obtain rfl : i = 0 := Nat.lt_one_iff.mp hi
  rfl

/-- A trail goes on with the layout that is followed next. -/
theorem snoc (h : Trail compiled page keys) (hkey : layoutAt compiled page keys.length = some key) :
    Trail compiled page (keys ++ [key]) := by
  intro i hi
  rw [List.length_append, List.length_singleton] at hi
  rcases Nat.lt_or_eq_of_le (Nat.le_of_lt_succ hi) with hlt | rfl
  · rw [List.getElem?_append_left hlt, h i hlt]
  · rw [List.getElem?_concat_length, hkey]

/-- The next layout after the last one of a trail is the one that it follows. -/
theorem next (h : Trail compiled page (keys ++ [key])) : layoutAt compiled page (keys ++ [key]).length =
    layoutToFollow (compiled key) (if keys.length = 0 then .page else .layout) := by
  have hlast : layoutAt compiled page keys.length = some key := by
    rw [← h keys.length (by rw [List.length_append, List.length_singleton]; omega), List.getElem?_concat_length]
  rw [List.length_append, List.length_singleton, layoutAt, hlast, Option.bind_some]

end Trail

end Engine

/-! ### The end of the walk -/

namespace Turn

variable {p : Page} {t : Turn} {body key : String}

end Turn

namespace Page

variable {p : Page} {compiled : String → CompiledTemplate} {page : String} {limit : Nat}

/-- The bodies that the render comes to run without an error, and the layouts that it enters load. -/
structure Meets (p : Page) (compiled : String → CompiledTemplate) : Prop where
  runs : ∀ i t earlier, p.turn? i = some (t, earlier) → ∃ body, (t.run p).1 = .ok body
  loads : ∀ i t earlier key chain, p.turn? i = some (t, earlier) → Engine.layoutToFollow t.compiled t.role = some key →
    t.chain.enter key = .ok chain → (p.engine.load key p.modelType (t.run p).2.host).1 = .ok (compiled key)

end Page

/-- A template for any model that writes a text and declares a layout. -/
def writing (key text layout : String) : CompiledTemplate where
  template := key
  className := ⟨"Template", isName_template⟩
  modelType := .dynamic
  program := ⟨⟨Ir.formatVersion, "", "Template", "html", "dynamic", [], some layout, false, [], [], [], [.write text]⟩, [],
    .html⟩

end Stencil
