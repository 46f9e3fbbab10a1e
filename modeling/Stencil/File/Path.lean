import Stencil.Text.Name

/-!
Paths as they are written. A separator stands between the segments of a path; an empty segment and `.` lead
nowhere, and `..` leads to the folder around. A path keeps the form in which it was written, since messages show it.
-/

namespace Stencil

/-- A path as it is written. -/
structure FilePath where
  text : String
deriving DecidableEq

namespace FilePath

/-- The segments between the separators. -/
def segments (p : FilePath) : List String := (Text.fields '/' p.text.toList).map String.ofList

/-- The path starts at the top of a tree. -/
def isAbsolute (p : FilePath) : Bool := p.text.toList.head? == some '/'

/-- What a text leads to from the end of the path; an absolute path leads to the same place from everywhere. -/
def join (p : FilePath) (rest : String) : FilePath :=
  if (⟨rest⟩ : FilePath).isAbsolute || p.text.isEmpty then ⟨rest⟩
  else if p.text.toList.getLast? == some '/' then ⟨p.text ++ rest⟩
  else ⟨p.text ++ "/" ++ rest⟩

/-- The segment leads nowhere. -/
def isIdle (segment : String) : Bool := segment == "" || segment == "."

/-- The segment names something in a folder. -/
def isName (segment : String) : Bool := !isIdle segment && segment != ".."

/-- Segments up to the last one that leads somewhere. -/
def dropIdle (segments : List String) : List String := (segments.reverse.dropWhile isIdle).reverse

/-- The last name of the path, if its last step leads to a name. -/
def name? (p : FilePath) : Option String := (dropIdle p.segments).getLast?.filter isName

/-- The path without its last step, if it has one. -/
def parent? (p : FilePath) : Option FilePath :=
  match dropIdle p.segments with
  | [] => none
  | segments =>
    let outer := dropIdle segments.dropLast
    some ⟨if outer.isEmpty && p.isAbsolute then "/" else "/".intercalate outer⟩

/-- The last name has an extension: a dot that is not its first character. -/
def hasExtension (p : FilePath) : Bool := p.name?.any fun name => (name.toList.drop 1).contains '.'

/-- The path with an extension behind its last name, which then ends the path. -/
def addExtension (p : FilePath) (extension : String) : FilePath :=
  match p.name? with
  | some _ => ⟨"/".intercalate (dropIdle p.segments) ++ "." ++ extension⟩
  | none => p

/-! ### Names and extensions -/

section
variable {p : FilePath} {outer : List String} {last : String}

theorem dropIdle_concat (hn : isName last = true) : dropIdle (outer ++ [last]) = outer ++ [last] := by
  have hidle : isIdle last = false := by
    simp only [isName, Bool.and_eq_true, Bool.not_eq_true'] at hn
    exact hn.1
  rw [dropIdle, List.reverse_append, List.reverse_singleton, List.singleton_append,
    List.dropWhile_cons_of_neg (by simp [hidle]), List.reverse_cons, List.reverse_reverse]

theorem name?_of_last (h : p.segments = outer ++ [last]) (hn : isName last = true) : p.name? = some last := by
  rw [name?, h, dropIdle_concat hn, List.getLast?_concat, Option.filter_some, if_pos hn]

theorem intercalate_segments (p : FilePath) : "/".intercalate p.segments = p.text := by
  apply String.toList_inj.mp
  rw [String.toList_intercalate, segments, List.map_map]
  have hid : (String.toList ∘ String.ofList : List Char → List Char) = id := funext fun _ => String.toList_ofList
  rw [hid, List.map_id]
  exact Text.intercalate_fields '/' p.text.toList

/-- An extension goes behind a path that ends with a name. -/
theorem addExtension_of_last (h : p.segments = outer ++ [last]) (hn : isName last = true) (extension : String) :
    p.addExtension extension = ⟨p.text ++ "." ++ extension⟩ := by
  rw [addExtension, name?_of_last h hn, h, dropIdle_concat hn, ← h, intercalate_segments]

end

theorem segments_append {before : String} {cs : List Char} (h : before.toList = cs ++ ['/']) (rest : String) :
    (⟨before ++ rest⟩ : FilePath).segments = (Text.fields '/' cs).map String.ofList ++ (⟨rest⟩ : FilePath).segments := by
  rw [segments, String.toList_append, h, List.append_assoc, List.singleton_append, Text.fields_append, List.map_append]
  rfl

/-- Joining puts the texts that are no absolute paths behind the same text, and their segments behind the same ones. -/
theorem exists_join (p : FilePath) : ∃ (before : String) (outer : List String), ∀ rest : String,
    (⟨rest⟩ : FilePath).isAbsolute = false →
      p.join rest = ⟨before ++ rest⟩ ∧ (p.join rest).segments = outer ++ (⟨rest⟩ : FilePath).segments := by
  by_cases hempty : p.text.isEmpty = true
  · refine ⟨"", [], fun rest _ => ?_⟩
    rw [join, hempty, Bool.or_true, if_pos rfl]
    exact ⟨by simp, rfl⟩
  rw [Bool.not_eq_true] at hempty
  by_cases hclosed : p.text.toList.getLast? = some '/'
  · obtain ⟨cs, hcs⟩ := List.getLast?_eq_some_iff.mp hclosed
    refine ⟨p.text, (Text.fields '/' cs).map String.ofList, fun rest hrest => ?_⟩
    rw [join, hempty, hrest, hclosed, Bool.or_false, if_neg (by simp), if_pos (by simp)]
    exact ⟨rfl, segments_append hcs rest⟩
  · refine ⟨p.text ++ "/", p.segments, fun rest hrest => ?_⟩
    rw [join, hempty, hrest, Bool.or_false, if_neg (by simp), if_neg (by simpa using hclosed)]
    exact ⟨rfl, segments_append (by simp) rest⟩

end FilePath

end Stencil
