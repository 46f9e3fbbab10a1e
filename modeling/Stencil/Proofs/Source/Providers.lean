import Mathlib.Data.List.Find
import Stencil.Proofs.Source.Imports
import Stencil.Proofs.Source.Keys
import Stencil.Source.Folder

/-! Templates in memory and in files.

The same templates can be held in memory and as files below a root, each in the file that its key names with the
extension behind it. Both providers then answer alike, as long as no key brings an extension of its own: whatever key
they look up, the path of its file is the path of the key with the extension. -/

namespace Stencil

namespace TemplateKey

/-! ### The last segment -/

/-- What stands after the last slash. -/
def lastSegment (cs : List Char) : List Char := (cs.reverse.takeWhile (· != '/')).reverse

section
variable {cs ds : List Char} {c : Char} {key n dir name : String}

theorem lastSegment_append (h : '/' ∉ ds) : lastSegment (cs ++ ds) = lastSegment cs ++ ds := by
  have hall : ∀ c ∈ ds.reverse, (c != '/') = true := by
    rintro c hc
    rw [bne_iff_ne]
    rintro rfl
    exact h (List.mem_reverse.mp hc)
  rw [lastSegment, List.reverse_append, List.takeWhile_append_of_pos hall, List.reverse_append, List.reverse_reverse,
    lastSegment]

theorem lastSegment_slash (h : '/' ∉ ds) : lastSegment (cs ++ '/' :: ds) = ds := by
  have hempty : lastSegment (cs ++ ['/']) = [] := by simp [lastSegment]
  rw [List.append_cons, lastSegment_append h, hempty, List.nil_append]

theorem lastSegment_eq_self (h : '/' ∉ ds) : lastSegment ds = ds := @lastSegment_append [] ds h

/-- A text has no slash, or a last one. -/
theorem exists_last_slash (cs : List Char) : '/' ∉ cs ∨ ∃ front back, cs = front ++ '/' :: back ∧ '/' ∉ back := by
  by_cases h : '/' ∈ cs
  · obtain ⟨back, front, hcs, hback⟩ := List.eq_append_cons_of_mem (List.mem_reverse.mpr h)
    refine .inr ⟨front.reverse, back.reverse, ?_, by simpa using hback⟩
    rw [← List.reverse_reverse cs, hcs]
    simp
  · exact .inl h

theorem exists_fields (cs : List Char) : ∃ outer, Text.fields '/' cs = outer ++ [lastSegment cs] := by
  rcases exists_last_slash cs with h | ⟨front, back, rfl, h⟩
  · exact ⟨[], by rw [Text.fields_of_not_mem h, lastSegment_eq_self h, List.nil_append]⟩
  · exact ⟨_, by rw [Text.fields_append, Text.fields_of_not_mem h, lastSegment_slash h]⟩

/-- A part of a text that is followed by no slash adds nothing to the last segment but its own. -/
theorem mem_lastSegment (h : c ∈ lastSegment ds) (before : List Char) {after : List Char} (hafter : '/' ∉ after) :
    c ∈ lastSegment (before ++ ds ++ after) := by
  rw [lastSegment_append hafter]
  refine List.mem_append_left _ ?_
  rcases exists_last_slash ds with hds | ⟨front, back, rfl, hback⟩
  · rw [lastSegment_append hds]
    exact List.mem_append_right _ (lastSegment_eq_self hds ▸ h)
  · rw [lastSegment_slash hback] at h
    rwa [← List.append_assoc, lastSegment_slash hback]

/-- The key is a relative path whose last segment is a name without an extension. -/
structure IsStem (key : String) : Prop where
  relative : key.toList.head? ≠ some '/'
  named : lastSegment key.toList ≠ []
  bare : '.' ∉ lastSegment key.toList

theorem isStem_normalized (h : normalize key = .ok n) (hdot : '.' ∉ lastSegment key.toList) : IsStem n := by
  obtain ⟨hfault, rfl⟩ := normalize_eq_ok.mp h
  constructor
  · rw [String.toList_ofList]
    exact fun hslash => bare_head? hslash rfl
  · rw [String.toList_ofList]
    intro hempty
    obtain ⟨outer, houter⟩ := exists_fields (TemplateKey.bare key.toList)
    have hbad : (Text.fields '/' (TemplateKey.bare key.toList)).any isBadSegment = true := by
      rw [houter, hempty]
      simp [isBadSegment]
    unfold fault? at hfault
    rw [hbad] at hfault
    split at hfault
    · cases hfault
    · split at hfault <;> cases hfault
  · rw [String.toList_ofList]
    intro hmem
    obtain ⟨front, hfront⟩ := bare_suffix key.toList
    obtain ⟨before, after, hkey, hblank⟩ := Text.exists_trim key.toList
    have hslash : '/' ∉ after := fun hc => absurd (hblank _ hc) (by decide)
    rw [← hfront, ← List.append_assoc] at hkey
    rw [hkey] at hdot
    exact hdot (mem_lastSegment hmem _ hslash)

/-- An import file in a directory of a key has a stem for a key. -/
theorem isStem_import (h : normalize key = .ok n) (hdir : dir ∈ directories n) (hname : name.toList ≠ [])
    (hslash : '/' ∉ name.toList) (hdot : '.' ∉ name.toList) : IsStem (dir ++ name) := by
  obtain ⟨-, rfl⟩ := normalize_eq_ok.mp h
  obtain ⟨⟨rest, hrest⟩, hclosed⟩ := mem_directories.mp hdir
  rw [String.toList_ofList] at hrest
  have hlast : lastSegment (dir ++ name).toList = name.toList := by
    rw [String.toList_append]
    rcases hclosed with hempty | hclosed
    · rw [hempty, List.nil_append, lastSegment_eq_self hslash]
    · obtain ⟨front, hfront⟩ := List.getLast?_eq_some_iff.mp hclosed
      rw [hfront, List.append_assoc, List.singleton_append, lastSegment_slash hslash]
  refine ⟨?_, hlast ▸ hname, hlast ▸ hdot⟩
  rw [String.toList_append]
  cases hd : dir.toList with
  | nil =>
    intro hhead
    exact hslash (List.mem_of_head? hhead)
  | cons c cs =>
    intro hhead
    rw [hd] at hrest
    rw [List.cons_append, List.head?_cons] at hhead
    have hslash : (bare key.toList).head? = some '/' := by rw [← hrest]; exact hhead
    exact bare_head? hslash rfl

end

end TemplateKey

namespace SourceItem

/-- The item apart from where its file is. -/
def withoutPath (i : SourceItem) : SourceItem := { i with path := none }

end SourceItem

namespace TemplateFolder

open TemplateKey

/-! ### Files -/

/-- The files of templates: each is the file that its key names, with the extension behind it. -/
def filesOf (f : TemplateFolder) (templates : List (String × String)) (path : FilePath) : Option ByteArray :=
  (templates.find? fun t => f.root.join (t.1 ++ "." ++ f.extension) == path).map (·.2.toUTF8)

theorem isAbsolute_eq_false {key : String} (h : key.toList.head? ≠ some '/') : (⟨key⟩ : FilePath).isAbsolute = false := by
  simpa [FilePath.isAbsolute] using h

theorem isAbsolute_file {key : String} (h : key.toList.head? ≠ some '/') (extension : String) :
    (⟨key ++ "." ++ extension⟩ : FilePath).isAbsolute = false := by
  refine isAbsolute_eq_false ?_
  rw [String.append_assoc, String.toList_append]
  cases hkey : key.toList with
  | nil => simp
  | cons c cs => simpa [hkey] using h

section
variable {f : TemplateFolder} {key : String}

/-- The file of a key without an extension has the extension of the files. -/
theorem path?_of_isStem (hempty : f.extension ≠ "") (hslash : '/' ∉ f.extension.toList) (hkey : IsStem key) :
    f.path? key = some (f.root.join (key ++ "." ++ f.extension)) := by
  obtain ⟨segments, hsegments⟩ := exists_fields key.toList
  have hlast : (⟨key⟩ : FilePath).segments = segments.map String.ofList ++ [String.ofList (lastSegment key.toList)] := by
    rw [FilePath.segments, hsegments, List.map_append]
    rfl
  have hname : FilePath.isName (String.ofList (lastSegment key.toList)) = true := by
    have hne : ∀ name : List Char, name = [] ∨ '.' ∈ name → String.ofList (lastSegment key.toList) ≠ String.ofList name := by
      rintro name (rfl | hdot) heq
      · exact hkey.named (String.ofList_injective heq)
      · exact hkey.bare (String.ofList_injective heq ▸ hdot)
    have hnone := hne [] (.inl rfl)
    have hself := hne ['.'] (.inr (by simp))
    have haround := hne ['.', '.'] (.inr (by simp))
    simp only [FilePath.isName, FilePath.isIdle, Bool.and_eq_true, Bool.not_eq_true', Bool.or_eq_false_iff, bne_iff_ne,
      beq_eq_false_iff_ne]
    exact ⟨⟨hnone, hself⟩, haround⟩
  -- The last segment has no point, so the extension is added and none is replaced.
  have hextension : (⟨key⟩ : FilePath).hasExtension = false := by
    rw [FilePath.hasExtension, FilePath.name?_of_last hlast hname, Option.any_some, String.toList_ofList]
    have hdrop : '.' ∉ (lastSegment key.toList).drop 1 := fun h => hkey.bare (List.mem_of_mem_drop h)
    simpa using hdrop
  obtain ⟨before, outer, hjoin⟩ := f.root.exists_join
  obtain ⟨hpath, hpathSegments⟩ := hjoin key (isAbsolute_eq_false hkey.relative)
  obtain ⟨hfile, -⟩ := hjoin (key ++ "." ++ f.extension) (isAbsolute_file hkey.relative _)
  rw [hlast, ← List.append_assoc] at hpathSegments
  rw [path?, hextension]
  simp only [Bool.false_or, beq_iff_eq, hempty, if_false]
  rw [if_neg (by simpa using hslash), FilePath.addExtension_of_last hpathSegments hname, hpath, hfile]
  simp [String.append_assoc]

theorem file_injective {key' : String} (h : key.toList.head? ≠ some '/') (h' : key'.toList.head? ≠ some '/') :
    f.root.join (key ++ "." ++ f.extension) = f.root.join (key' ++ "." ++ f.extension) ↔ key = key' := by
  obtain ⟨before, outer, hjoin⟩ := f.root.exists_join
  rw [(hjoin _ (isAbsolute_file h _)).1, (hjoin _ (isAbsolute_file h' _)).1]
  constructor
  · intro heq
    have heq : before ++ (key ++ "." ++ f.extension) = before ++ (key' ++ "." ++ f.extension) := congrArg FilePath.text heq
    simpa [String.append_assoc] using heq
  · rintro rfl
    rfl

/-- The file of a key holds the template that memory has under the key. -/
theorem filesOf_file {m : MemorySource} (hm : ∀ t ∈ m.templates, t.1.toList.head? ≠ some '/')
    (hkey : key.toList.head? ≠ some '/') :
    f.filesOf m.templates (f.root.join (key ++ "." ++ f.extension)) = (m.find? key).map String.toUTF8 := by
  have hfind : m.templates.find? (fun t => f.root.join (t.1 ++ "." ++ f.extension) == f.root.join (key ++ "." ++ f.extension)) =
      m.templates.find? (·.1 == key) := by
    refine List.find?_congr fun t ht => ?_
    rw [Bool.eq_iff_iff, beq_iff_eq, beq_iff_eq, file_injective (hm t ht) hkey]
  rw [filesOf, hfind, MemorySource.find?, Option.map_map]
  rfl

theorem fromUTF8?_toUTF8 (text : String) : String.fromUTF8? text.toUTF8 = some text :=
  dif_pos text.isValidUTF8

/-- What memory has under a key, in the file of the key. -/
def fileItem (f : TemplateFolder) (m : MemorySource) (key : String) : SourceItem :=
  { m.lookup key with path := some (f.root.join (key ++ "." ++ f.extension)).text }

/-- A key without an extension is looked up alike. -/
theorem lookup_of_isStem {m : MemorySource} (hempty : f.extension ≠ "") (hslash : '/' ∉ f.extension.toList)
    (hm : ∀ t ∈ m.templates, t.1.toList.head? ≠ some '/') (hkey : IsStem key) :
    f.lookup (f.filesOf m.templates) key = .ok (f.fileItem m key) := by
  rw [lookup, path?_of_isStem hempty hslash hkey]
  dsimp only
  rw [content, filesOf_file hm hkey.relative, fileItem, MemorySource.lookup]
  cases m.find? key with
  | none => rfl
  | some text =>
    dsimp only [Option.map_some]
    rw [fromUTF8?_toUTF8]

/-! ### Both providers -/

theorem extension_make (root : FilePath) {extension : String} (hdot : '.' ∉ extension.toList) :
    (make root extension).extension = extension := by
  have hdrop : extension.toList.dropWhile (· == '.') = extension.toList := by
    cases hcs : extension.toList with
    | nil => rfl
    | cons c cs =>
      rw [hcs, List.mem_cons, not_or] at hdot
      exact List.dropWhile_cons_of_neg (by simpa using Ne.symm hdot.1)
  rw [make, hdrop, String.ofList_toList]

theorem map_withoutPath_found (items : String → SourceItem) (keys : List String) :
    ((keys.map items).filter (·.found)).map (·.withoutPath) =
      (keys.map fun k => (items k).withoutPath).filter (·.found) := by
  rw [List.filter_map, List.filter_map, List.map_map]
  rfl

/-- Templates in memory and in files are found alike under every key without an extension: the same keys are refused,
and what is found has the same key and content. The import files are the same ones, too. -/
theorem provider_alike (root : FilePath) {extension : String} (m : MemorySource) (hempty : extension ≠ "")
    (hdot : '.' ∉ extension.toList) (hslash : '/' ∉ extension.toList)
    (hkeys : ∀ t ∈ m.templates, normalize t.1 = .ok t.1) :
    let f := make root extension
    let p := f.provider (f.filesOf m.templates)
    (∀ key, '.' ∉ lastSegment key.toList → (p.item key).map (·.withoutPath) = m.provider.item key) ∧
    ∀ key name, '.' ∉ lastSegment key.toList → name ≠ "" → '/' ∉ name.toList → '.' ∉ name.toList →
      (p.imports key name).map (·.map (·.withoutPath)) = m.provider.imports key name := by
  intro f p
  have hextension : f.extension = extension := extension_make root hdot
  rw [← hextension] at hempty hslash
  -- Keys are relative, so that joining them to the root keeps the root.
  have hm : ∀ t ∈ m.templates, t.1.toList.head? ≠ some '/' := by
    intro t ht hhead
    rw [(normalize_eq_ok.mp (hkeys t ht)).2, String.toList_ofList] at hhead
    exact bare_head? hhead rfl
  have hlookup : ∀ {key}, IsStem key → f.lookup (f.filesOf m.templates) key = .ok (f.fileItem m key) :=
    lookup_of_isStem hempty hslash hm
  constructor
  · intro key hkey
    rcases hnormal : normalize key with fault | n
    · rw [m.provider_invalid hnormal, show p.item key = _ from SourceProvider.ofLookup_item_invalid hnormal]
      rfl
    · rw [m.provider_item hnormal, show p.item key = _ from SourceProvider.ofLookup_item hnormal,
        hlookup (isStem_normalized hnormal hkey)]
      rfl
  · intro key name hkey hname hnameSlash hnameDot
    rcases hnormal : normalize key with fault | n
    · rw [m.imports_invalid hnormal, show p.imports key name = _ from SourceProvider.ofLookup_imports_invalid hnormal name]
      rfl
    · have himports : p.imports key name = .ok _ := SourceProvider.ofLookup_imports hnormal fun dir hdir =>
        hlookup (isStem_import hnormal hdir (by simpa using hname) hnameSlash hnameDot)
      rw [m.imports_eq hnormal, himports, Except.map, map_withoutPath_found]
      rfl

/-- A page in a folder with a dot in its name, and an import file two folders above. -/
theorem provider_alike_page :
    let m : MemorySource := ⟨[("_imports", "@using A"), ("docs/a.b/page", "x")]⟩
    let f := make ⟨"/srv/views"⟩ "html"
    let p := f.provider (f.filesOf m.templates)
    (p.item " ~/docs/a.b/page ").map (·.withoutPath) = .ok ⟨"docs/a.b/page", .text "x", none⟩ ∧
      (p.imports "docs/a.b/page" "_imports").map (·.map (·.withoutPath)) = .ok [⟨"_imports", .text "@using A", none⟩] := by
  intro m f p
  have hkeys : ∀ t ∈ m.templates, normalize t.1 = .ok t.1 := by
    simp only [m, List.mem_cons, List.not_mem_nil, or_false]
    rintro t (rfl | rfl) <;> rfl
  obtain ⟨hitem, himports⟩ := @provider_alike ⟨"/srv/views"⟩ "html" m (by decide) (by decide) (by decide) hkeys
  exact ⟨(hitem _ (by decide +kernel)).trans rfl,
    (himports _ _ (by decide +kernel) (by decide) (by decide) (by decide)).trans rfl⟩

/-- An extension with a slash is no extension of a path, so what memory has is refused. -/
theorem provider_refuses_slash : ¬∀ (root : FilePath) (extension : String) (m : MemorySource), extension ≠ "" →
    '.' ∉ extension.toList → (∀ t ∈ m.templates, normalize t.1 = .ok t.1 ∧ '.' ∉ lastSegment t.1.toList) →
      ∀ key, '.' ∉ lastSegment key.toList →
        let f := make root extension
        ((f.provider (f.filesOf m.templates)).item key).map (·.withoutPath) = m.provider.item key := by
  intro h
  have hpage : ∀ t ∈ [("page", "hi")], normalize t.1 = .ok t.1 ∧ '.' ∉ lastSegment t.1.toList := by
    intro t ht
    cases List.mem_singleton.mp ht
    exact ⟨rfl, by decide +kernel⟩
  have hitem := h ⟨"views"⟩ "x/y" ⟨[("page", "hi")]⟩ (by decide) (by decide) hpage "page" (by decide +kernel)
  have hfile : ((make ⟨"views"⟩ "x/y").provider ((make ⟨"views"⟩ "x/y").filesOf [("page", "hi")])).item "page" =
      .error (.unusableExtension "x/y") := rfl
  have hmemory : (MemorySource.provider ⟨[("page", "hi")]⟩).item "page" = .ok ⟨"page", .text "hi", none⟩ := rfl
  dsimp only at hitem
  rw [hfile, hmemory] at hitem
  cases hitem

end

end TemplateFolder

end Stencil
