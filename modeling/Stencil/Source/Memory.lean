import Stencil.Source.Item

/-!
Templates held in memory under their normalized keys.
-/

namespace Stencil

/-- Templates by key. -/
structure MemorySource where
  templates : List (String × String) := []

namespace MemorySource

/-- The text under a normalized key. -/
def find? (s : MemorySource) (key : String) : Option String :=
  (s.templates.find? (·.1 == key)).map (·.2)

/-- The templates without one. -/
def erase (s : MemorySource) (key : String) : MemorySource := ⟨s.templates.filter (·.1 != key)⟩

/-- Adds a template, or replaces it. -/
def insert (s : MemorySource) (key content : String) : Except SourceFault MemorySource :=
  match TemplateKey.normalize key with
  | .ok key => .ok ⟨(key, content) :: (s.erase key).templates⟩
  | .error fault => .error (.invalidKey key fault)

/-- Removes a template; nothing if there is none. -/
def remove? (s : MemorySource) (key : String) : Option MemorySource :=
  match TemplateKey.normalize key with
  | .ok key => if (s.find? key).isSome then some (s.erase key) else none
  | .error _ => none

/-- What is found under a normalized key. -/
def lookup (s : MemorySource) (key : String) : SourceItem where
  key := key
  content := match s.find? key with
    | some content => .text content
    | none => .missing

/-- The templates as a provider. -/
def provider (s : MemorySource) : SourceProvider := .ofLookup fun key => .ok (s.lookup key)

/-! ### What is found -/

theorem find?_insert {s s' : MemorySource} {key n content : String} (h : s.insert key content = .ok s')
    (hkey : TemplateKey.normalize key = .ok n) : s'.find? n = some content := by
  unfold insert at h
  rw [hkey] at h
  cases h
  rw [find?, List.find?_cons_of_pos (by exact beq_self_eq_true n)]
  rfl

theorem insert_ok (s : MemorySource) {key n : String} (content : String) (hkey : TemplateKey.normalize key = .ok n) :
    ∃ s', s.insert key content = .ok s' := by
  unfold insert
  rw [hkey]
  exact ⟨_, rfl⟩

theorem provider_item (s : MemorySource) {key n : String} (hkey : TemplateKey.normalize key = .ok n) :
    s.provider.item key = .ok (s.lookup n) := SourceProvider.ofLookup_item hkey

theorem provider_invalid (s : MemorySource) {key : String} {fault : KeyFault} (hkey : TemplateKey.normalize key = .error fault) :
    s.provider.item key = .error (.invalidKey key fault) := SourceProvider.ofLookup_item_invalid hkey

theorem lookup_of_find? {s : MemorySource} {n content : String} (hfind : s.find? n = some content) :
    s.lookup n = ⟨n, .text content, none⟩ := by
  rw [lookup, hfind]

/-- Adding a template leaves the others as they are. -/
theorem find?_insert_ne {s s' : MemorySource} {key n other content : String} (h : s.insert key content = .ok s')
    (hkey : TemplateKey.normalize key = .ok n) (hne : other ≠ n) : s'.find? other = s.find? other := by
  unfold insert at h
  rw [hkey] at h
  cases h
  rw [find?, List.find?_cons_of_neg (by simpa using hne.symm), erase, List.find?_filter]
  refine congrArg (Option.map _) (congrArg (List.find? · _) (funext fun t => ?_))
  by_cases ht : t.1 = other
  · simp [ht, hne]
  · simp [ht]

end MemorySource

end Stencil
