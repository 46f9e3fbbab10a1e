import Stencil.File.Path

/-!
File trees: what stands in the places below a top folder. A path leads to a place step by step, and each step but
the last needs a folder to be there; so `a/..` leads back only if there is a folder `a`. Names and paths that are
too long lead nowhere.
-/

namespace Stencil

-- Contents are compared with the test that comes with byte arrays.
attribute [local instance (high)] ByteArray.instDecidableEq

/-- The names that lead from the top of a tree to a file or folder. -/
abbrev FilePlace := List String

/-- What stands in a place. -/
inductive FileNode
  | file (content : ByteArray)
  | folder
deriving DecidableEq

/-- The places of a tree with what stands in them. -/
structure FileTree where
  nodes : List (FilePlace × FileNode) := []
  /-- The folder that relative paths start in. It is there, and so are the folders around it. -/
  start : FilePlace := []
deriving DecidableEq

namespace FileTree

/-! ### Places -/

/-- What stands in a place. -/
def node? (t : FileTree) (place : FilePlace) : Option FileNode :=
  if place.isPrefixOf t.start then some .folder else (t.nodes.find? (·.1 == place)).map (·.2)

/-- A folder stands in the place. -/
def holdsFolder (t : FileTree) (place : FilePlace) : Bool := t.node? place == some .folder

/-- The tree with a node put in a place. -/
def put (t : FileTree) (place : FilePlace) (node : FileNode) : FileTree :=
  { t with nodes := t.nodes.filter (·.1 != place) ++ [(place, node)] }

/-! ### Paths -/

/-- How many bytes a name may have. -/
def maxNameBytes : Nat := 255

/-- How many bytes a path may have, counted from the top. -/
def maxPathBytes : Nat := 4095

/-- The place that a path starts from. -/
def origin (t : FileTree) (p : FilePath) : FilePlace := if p.isAbsolute then [] else t.start

/-- The path is not too long and has no null character. -/
def admits (t : FileTree) (p : FilePath) : Bool :=
  let before := if p.isAbsolute then 0 else t.start.foldl (fun n name => n + name.utf8ByteSize + 1) 1
  before + p.text.utf8ByteSize ≤ maxPathBytes && !p.text.toList.contains '\x00'

/-- The place that a segment leads to from another one. -/
def step? (t : FileTree) (place : FilePlace) (segment : String) : Option FilePlace :=
  if !t.holdsFolder place then none
  else if FilePath.isIdle segment then some place
  else if segment = ".." then some place.dropLast
  else if segment.utf8ByteSize ≤ maxNameBytes then some (place ++ [segment])
  else none

/-- The place that a path leads to, whether or not something stands there. -/
def place? (t : FileTree) (p : FilePath) : Option FilePlace :=
  if t.admits p then p.segments.foldlM t.step? (t.origin p) else none

/-- The place that a path leads to, if something stands there. -/
def find? (t : FileTree) (p : FilePath) : Option FilePlace :=
  (t.place? p).filter fun place => (t.node? place).isSome

/-- What stands under a path. -/
def get? (t : FileTree) (p : FilePath) : Option FileNode := (t.place? p).bind t.node?

/-- The content of the file under a path. -/
def content? (t : FileTree) (p : FilePath) : Option ByteArray :=
  match t.get? p with
  | some (.file content) => some content
  | _ => none

/-- A file stands under the path. -/
def isFile (t : FileTree) (p : FilePath) : Bool := (t.content? p).isSome

/-- A folder stands under the path. -/
def isFolder (t : FileTree) (p : FilePath) : Bool := t.get? p == some .folder

/-- The names of the files that stand directly in the folder under a path. -/
def fileNames (t : FileTree) (p : FilePath) : List String :=
  t.nodes.filterMap fun (place, node) =>
    match node with
    | .file _ => if t.place? p = some place.dropLast then place.getLast? else none
    | .folder => none

/-! ### Changes -/

/-- The tree with the folders that segments lead through from a place, as far as no file stands in the way. -/
def makeFoldersFrom (t : FileTree) (place : FilePlace) : List String → FileTree
  | [] => t
  | segment :: rest =>
    match t.step? place segment with
    | none => t
    | some next => (if (t.node? next).isSome then t else t.put next .folder).makeFoldersFrom next rest

/-- The segments of the folders that are made for a path: a final `.` is a step in a folder that is there. -/
def foldersToMake (p : FilePath) : List String :=
  if (p.segments.reverse.dropWhile (· == "")).head? = some "." then (FilePath.dropIdle p.segments).dropLast
  else p.segments

/-- The tree with the folders of a path, as far as they can be made. -/
def makeFolders (t : FileTree) (p : FilePath) : FileTree :=
  if t.admits p then t.makeFoldersFrom (t.origin p) (foldersToMake p) else t

/-- The place of the file under a path, whether or not it is there; nothing if the path cannot be a file's. -/
def fileAt? (t : FileTree) (p : FilePath) : Option FilePlace :=
  if p.segments.getLast?.any FilePath.isName then (t.place? p).filter (!t.holdsFolder ·) else none

/-- The tree with a file under a path, which is empty if it was not there, and its place. -/
def create (t : FileTree) (p : FilePath) : Option (FilePlace × FileTree) :=
  (t.fileAt? p).map fun place =>
    (place, if (t.node? place).isSome then t else t.put place (.file ByteArray.empty))

/-- The tree with the content of a file replaced; nothing if its folder is missing or the path is a folder's. -/
def write (t : FileTree) (p : FilePath) (content : ByteArray) : Option FileTree :=
  (t.fileAt? p).map fun place => t.put place (.file content)

/-- The tree with a file and the folders it stands in, as far as they can be made. -/
def writeWithFolders (t : FileTree) (p : FilePath) (content : ByteArray) : FileTree :=
  let t := match p.parent? with
    | some folder => t.makeFolders folder
    | none => t
  (t.write p content).getD t

/-- The tree without what stands under a path and what stands in it. -/
def remove (t : FileTree) (p : FilePath) : FileTree :=
  match t.place? p with
  | some place => { t with nodes := t.nodes.filter fun n => !place.isPrefixOf n.1 }
  | none => t

end FileTree

end Stencil
