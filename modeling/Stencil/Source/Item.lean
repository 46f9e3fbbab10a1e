import Stencil.Source.Key
import Stencil.Unit.Generated

/-!
Where templates come from. A provider looks a template up by its key, and finds the import files that apply to
it: those of a given name in the directories above it, the root's first.
-/

namespace Stencil

/-- What was found for a key. -/
inductive SourceContent
  | missing
  | text (content : String)
  /-- A file that holds no text. -/
  | notText
deriving DecidableEq

/-- A template that was looked up under its normalized key. -/
structure SourceItem where
  key : String
  content : SourceContent
  /-- The path of the file, if the template is looked for in one. -/
  path : Option String := none
deriving DecidableEq

namespace SourceItem

/-- There is such a template. -/
def found (i : SourceItem) : Bool := i.content != .missing

/-- The text of the template. -/
def read (i : SourceItem) : Except SourceFault TemplateSource :=
  match i.content with
  | .text content => .ok ⟨i.key, content, i.path⟩
  | .notText => .error (.notText i.key (i.path.getD ""))
  | .missing => .error (.notFound i.key)

end SourceItem

/-- A provider of templates. -/
structure SourceProvider where
  /-- Looks up a template. -/
  item : String → Except SourceFault SourceItem
  /-- The import files of a given name that apply to a template. -/
  imports : String → String → Except SourceFault (List SourceItem)

namespace SourceProvider

/-- The provider that looks up normalized keys in a given way. -/
def ofLookup (lookup : String → Except SourceFault SourceItem) : SourceProvider where
  item key :=
    match TemplateKey.normalize key with
    | .ok key => lookup key
    | .error fault => .error (.invalidKey key fault)
  imports key name :=
    match TemplateKey.normalize key with
    | .ok key => do
      let candidates := (TemplateKey.directories key).map (· ++ name)
      let items ← (candidates.filter (· != key)).mapM lookup
      return items.filter (·.found)
    | .error _ => .ok []

/-! ### What is looked up -/

section
variable {lookup : String → Except SourceFault SourceItem} {key path : String}

theorem ofLookup_item (h : TemplateKey.normalize key = .ok path) : (ofLookup lookup).item key = lookup path := by
  simp only [ofLookup, h]

theorem ofLookup_item_invalid {fault : KeyFault} (h : TemplateKey.normalize key = .error fault) :
    (ofLookup lookup).item key = .error (.invalidKey key fault) := by
  simp only [ofLookup, h]

theorem ofLookup_imports_invalid {fault : KeyFault} (h : TemplateKey.normalize key = .error fault) (name : String) :
    (ofLookup lookup).imports key name = .ok [] := by
  simp only [ofLookup, h]

theorem mapM_lookup {items : String → SourceItem} {keys : List String} (h : ∀ k ∈ keys, lookup k = .ok (items k)) :
    keys.mapM lookup = .ok (keys.map items) := by
  induction keys with
  | nil => rfl
  | cons k ks ih =>
    rw [List.mapM_cons, h k List.mem_cons_self, ih fun l hl => h l (List.mem_cons_of_mem _ hl)]
    rfl

/-- What is found of the candidates, if all can be looked up. -/
theorem ofLookup_imports {items : String → SourceItem} {name : String} (h : TemplateKey.normalize key = .ok path)
    (hlookup : ∀ dir ∈ TemplateKey.directories path, lookup (dir ++ name) = .ok (items (dir ++ name))) :
    (ofLookup lookup).imports key name = .ok
      ((((TemplateKey.directories path).map (· ++ name)).filter (· != path)).map items |>.filter (·.found)) := by
  have hall : ∀ k ∈ ((TemplateKey.directories path).map (· ++ name)).filter (· != path), lookup k = .ok (items k) := by
    intro k hk
    obtain ⟨dir, hdir, rfl⟩ := List.mem_map.mp (List.mem_filter.mp hk).1
    exact hlookup dir hdir
  simp only [ofLookup, h, mapM_lookup hall]
  rfl

end

end SourceProvider

end Stencil
