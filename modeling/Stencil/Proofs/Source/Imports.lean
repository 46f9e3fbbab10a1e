import Stencil.Source.Memory

/-! The import files of a template.

They are the files of the import name in the directories above the template, the root's first. A directory of a path is
a prefix of it that is empty or ends with a slash. -/

namespace Stencil

namespace TemplateKey

/-! ### Directories -/

/-- The text is the root, or a prefix of the path that ends with a slash. -/
structure Encloses (dir path : List Char) : Prop where
  isPrefix : dir <+: path
  closed : dir = [] ∨ dir.getLast? = some '/'

section
variable {before d cs x : List Char} {c : Char} {segments : List (List Char)}

theorem prefixesFrom_eq_cons (before : List Char) (segments : List (List Char)) :
    ∃ ds, prefixesFrom before segments = before :: ds := by
  cases segments with
  | nil => exact ⟨[], rfl⟩
  | cons s ss =>
    cases ss with
    | nil => exact ⟨[], rfl⟩
    | cons t ts => exact ⟨_, rfl⟩

theorem prefixesFrom_cons_of_ne_nil {s : List Char} (h : segments ≠ []) :
    prefixesFrom before (s :: segments) = before :: prefixesFrom (before ++ s ++ ['/']) segments := by
  cases segments with
  | nil => exact absurd rfl h
  | cons t ts => rfl

/-- A character that is no slash moves from the first segment to what stands before it. -/
theorem tail_prefixesFrom_cons (h : c ≠ '/') :
    (prefixesFrom before (Text.fields '/' (c :: cs))).tail =
      (prefixesFrom (before ++ [c]) (Text.fields '/' cs)).tail := by
  obtain ⟨piece, pieces, hp⟩ := List.exists_cons_of_ne_nil (Text.fields_ne_nil '/' cs)
  simp only [Text.fields, if_neg h, hp]
  cases pieces with
  | nil => rfl
  | cons q qs => simp [prefixesFrom]

theorem prefixesFrom_slash :
    (prefixesFrom before (Text.fields '/' ('/' :: cs))).tail = prefixesFrom (before ++ ['/']) (Text.fields '/' cs) := by
  rw [Text.fields, if_pos rfl, prefixesFrom_cons_of_ne_nil (Text.fields_ne_nil '/' cs), List.append_nil, List.tail_cons]

theorem getLast?_cons_slash {ds : List Char} (h : ds = [] ∨ ds.getLast? = some '/') :
    ('/' :: ds).getLast? = some '/' := by
  rcases h with rfl | h
  · rfl
  · rw [List.getLast?_cons, h, Option.getD_some]

/-- All the prefixes but the first one, which is the root, end with a slash. -/
theorem mem_tail_prefixesFrom : x ∈ (prefixesFrom before (Text.fields '/' cs)).tail ↔
    ∃ d, x = before ++ d ∧ d <+: cs ∧ d.getLast? = some '/' := by
  induction cs generalizing before with
  | nil =>
    simp only [Text.fields, prefixesFrom, List.tail_cons, List.not_mem_nil, List.prefix_nil, false_iff]
    rintro ⟨d, -, rfl, ⟨⟩⟩
  | cons c cs ih =>
    by_cases hc : c = '/'
    · subst hc
      -- A slash ends a directory, and the prefixes behind it are longer than that directory.
      obtain ⟨ds, hds⟩ := prefixesFrom_eq_cons (before ++ ['/']) (Text.fields '/' cs)
      rw [prefixesFrom_slash, hds, List.mem_cons]
      have htail := @ih (before ++ ['/'])
      rw [hds, List.tail_cons] at htail
      rw [htail]
      constructor
      · rintro (rfl | ⟨d, rfl, hd, hlast⟩)
        · exact ⟨['/'], rfl, List.prefix_cons_iff.mpr (.inr ⟨[], rfl, List.nil_prefix⟩), rfl⟩
        · exact ⟨'/' :: d, by simp, List.prefix_cons_iff.mpr (.inr ⟨d, rfl, hd⟩), getLast?_cons_slash (.inr hlast)⟩
      · rintro ⟨d, rfl, hd, hlast⟩
        rcases List.prefix_cons_iff.mp hd with rfl | ⟨e, rfl, he⟩
        · cases hlast
        · cases e with
          | nil => exact .inl rfl
          | cons a e => exact .inr ⟨a :: e, by simp, he, by rwa [List.getLast?_cons_cons] at hlast⟩
    · rw [tail_prefixesFrom_cons hc, ih]
      constructor
      · rintro ⟨d, rfl, hd, hlast⟩
        refine ⟨c :: d, by simp, List.prefix_cons_iff.mpr (.inr ⟨d, rfl, hd⟩), ?_⟩
        rw [List.getLast?_cons, hlast, Option.getD_some]
      · rintro ⟨d, rfl, hd, hlast⟩
        rcases List.prefix_cons_iff.mp hd with rfl | ⟨e, rfl, he⟩
        · cases hlast
        · cases e with
          | nil => exact absurd (Option.some.inj hlast) hc
          | cons a e => exact ⟨a :: e, by simp, he, by rwa [List.getLast?_cons_cons] at hlast⟩

/-- The directories of a path are the root and what stands before its slashes, with the slash. -/
theorem mem_directories {dir key : String} : dir ∈ directories key ↔ Encloses dir.toList key.toList := by
  obtain ⟨ds, hds⟩ := prefixesFrom_eq_cons [] (Text.fields '/' key.toList)
  have htail : ∀ x, x ∈ ds ↔ x <+: key.toList ∧ x.getLast? = some '/' := by
    intro x
    have := @mem_tail_prefixesFrom [] key.toList x
    rw [hds, List.tail_cons] at this
    simpa using this
  have hmem : dir ∈ directories key ↔ dir.toList ∈ ([] : List Char) :: ds := by
    rw [directories, hds, List.mem_map]
    constructor
    · rintro ⟨x, hx, rfl⟩
      rwa [String.toList_ofList]
    · exact fun h => ⟨dir.toList, h, String.ofList_toList⟩
  rw [hmem, List.mem_cons, htail]
  constructor
  · rintro (h | ⟨h, hlast⟩)
    · exact ⟨h ▸ List.nil_prefix, .inl h⟩
    · exact ⟨h, .inr hlast⟩
  · rintro ⟨h, hnil | hlast⟩
    · exact .inl hnil
    · exact .inr ⟨h, hlast⟩

theorem length_le_of_mem_prefixesFrom (h : x ∈ prefixesFrom before segments) : before.length ≤ x.length := by
  induction segments generalizing before with
  | nil =>
    cases List.mem_singleton.mp h
    exact Nat.le_refl _
  | cons s ss ih =>
    cases ss with
    | nil =>
      cases List.mem_singleton.mp h
      exact Nat.le_refl _
    | cons t ts =>
      rcases List.mem_cons.mp h with rfl | h
      · exact Nat.le_refl _
      · have := ih h
        simp only [List.length_append] at this
        omega

theorem prefixesFrom_pairwise (before : List Char) (segments : List (List Char)) :
    (prefixesFrom before segments).Pairwise (·.length < ·.length) := by
  induction segments generalizing before with
  | nil => exact List.pairwise_singleton _ _
  | cons s ss ih =>
    cases ss with
    | nil => exact List.pairwise_singleton _ _
    | cons t ts =>
      refine List.pairwise_cons.mpr ⟨fun x hx => ?_, ih _⟩
      have := length_le_of_mem_prefixesFrom hx
      simp only [List.length_append, List.length_singleton] at this
      omega

/-- The directories lead from the root down. -/
theorem directories_pairwise (key : String) : (directories key).Pairwise (·.length < ·.length) := by
  rw [directories, List.pairwise_map]
  simpa only [String.length_ofList] using prefixesFrom_pairwise [] (Text.fields '/' key.toList)

end

end TemplateKey

namespace MemorySource

open TemplateKey

/-- The items are the files of the import name that exist in the directories above a path, the root's first. A template is
no import file of its own. -/
structure ImportsOf (s : MemorySource) (path name : String) (items : List SourceItem) : Prop where
  mem : ∀ i, i ∈ items ↔ ∃ dir content, Encloses dir.toList path.toList ∧ dir ++ name ≠ path ∧
    s.find? (dir ++ name) = some content ∧ i = ⟨dir ++ name, .text content, none⟩
  rootFirst : items.Pairwise (·.key.length < ·.key.length)

section
variable {s : MemorySource} {key path name : String}

theorem imports_invalid {fault : KeyFault} (h : normalize key = .error fault) :
    s.provider.imports key name = .ok [] := SourceProvider.ofLookup_imports_invalid h name

/-- What is found of the candidates. -/
theorem imports_eq (h : normalize key = .ok path) : s.provider.imports key name = .ok
    ((((directories path).map (· ++ name)).filter (· != path)).map s.lookup |>.filter (·.found)) :=
  SourceProvider.ofLookup_imports h fun _ _ => rfl

theorem found_lookup : (s.lookup key).found = true ↔ ∃ content, s.find? key = some content ∧
    s.lookup key = ⟨key, .text content, none⟩ := by
  unfold lookup SourceItem.found
  cases s.find? key <;> simp

/-- The import files of a template are found, and they are those of its directories. -/
theorem imports_importsOf (name : String) (h : normalize key = .ok path) :
    ∃ items, s.provider.imports key name = .ok items ∧ s.ImportsOf path name items := by
  refine ⟨_, imports_eq h, fun i => ?_, ?_⟩
  · simp only [List.mem_filter, List.mem_map, mem_directories]
    constructor
    · rintro ⟨⟨_, ⟨⟨dir, hdir, rfl⟩, hne⟩, rfl⟩, hfound⟩
      obtain ⟨content, hcontent, hi⟩ := found_lookup.mp hfound
      exact ⟨dir, content, hdir, by simpa using hne, hcontent, hi⟩
    · rintro ⟨dir, content, hdir, hne, hcontent, rfl⟩
      have hi : s.lookup (dir ++ name) = ⟨dir ++ name, .text content, none⟩ := by rw [lookup, hcontent]
      exact ⟨⟨_, ⟨⟨dir, hdir, rfl⟩, by simpa using hne⟩, hi⟩, by simp [SourceItem.found]⟩
  · refine List.Pairwise.filter _ ?_
    rw [List.pairwise_map]
    refine List.Pairwise.filter _ ?_
    rw [List.pairwise_map]
    refine (directories_pairwise path).imp fun {a b} hab => ?_
    simp only [lookup, String.length_append]
    omega

end

/-- What is found in memory can be read. -/
theorem ImportsOf.read {s : MemorySource} {path name : String} {items : List SourceItem} (h : s.ImportsOf path name items) :
    ∃ files, items.mapM (·.read) = .ok files ∧ items = files.map fun f => ⟨f.key, .text f.content, none⟩ := by
  have hitems : ∀ i ∈ items, ∃ f : TemplateSource, i.read = .ok f ∧ i = ⟨f.key, .text f.content, none⟩ := by
    intro i hi
    obtain ⟨dir, content, -, -, -, rfl⟩ := (h.mem i).mp hi
    exact ⟨⟨dir ++ name, content, none⟩, rfl, rfl⟩
  clear h
  induction items with
  | nil => exact ⟨[], rfl, rfl⟩
  | cons i is ih =>
    obtain ⟨f, hf, hi⟩ := hitems i List.mem_cons_self
    obtain ⟨fs, hfs, his⟩ := ih fun j hj => hitems j (List.mem_cons_of_mem _ hj)
    refine ⟨f :: fs, ?_, ?_⟩
    · rw [List.mapM_cons, hf, hfs]
      rfl
    · rw [List.map_cons, ← his, hi]

end MemorySource

end Stencil
