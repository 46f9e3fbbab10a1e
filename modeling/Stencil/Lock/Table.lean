import Stencil.File.Tree
import Stencil.Lock.Fault

/-!
Locks on artifact files. Any number of holders may share a file, or one holder has it alone; who has it alone
may write it. A lock that is not free in time is a fault, and with nobody at work in between it is not free at
all.
-/

namespace Stencil

/-- How a lock is held. -/
inductive LockMode
  | shared
  | exclusive
deriving DecidableEq

/-- A lock that is held on a file. -/
structure Guard where
  id : Nat
  place : FilePlace
  mode : LockMode
deriving DecidableEq

/-- Files and the locks held on them. -/
structure LockTable where
  files : FileTree := {}
  guards : List Guard := []
  /-- The id of the next guard. -/
  next : Nat := 0

namespace LockTable

/-- Two locks on one file exclude each other unless both share it. -/
def conflicts (place : FilePlace) (mode : LockMode) (g : Guard) : Bool :=
  g.place == place && (mode == .exclusive || g.mode == .exclusive)

/-- The lock is free. -/
def isFree (t : LockTable) (place : FilePlace) (mode : LockMode) : Bool :=
  !t.guards.any (conflicts place mode)

/-- Opens a path for a lock: the place it leads to, and the files afterwards. For an exclusive lock the file and
its folders are made, a shared one needs something to be there. -/
def openFor (files : FileTree) (path : FilePath) : LockMode → Except LockStep FilePlace × FileTree
  | .exclusive =>
    let folder := path.parent?
    let files := (folder.map files.makeFolders).getD files
    if !folder.all files.isFolder then (.error .createFolder, files)
    else match files.create path with
      | some (place, files) => (.ok place, files)
      | none => (.error .openForWriting, files)
  | .shared => match files.find? path with
    | some place => (.ok place, files)
    | none => (.error .openForReading, files)

/-- Acquires a lock for a purpose. The files stay opened even if the lock is not free. -/
def acquire (t : LockTable) (path : FilePath) (mode : LockMode) (purpose : String) :
    Except LockFault Guard × LockTable :=
  let (opened, files) := openFor t.files path mode
  let t := { t with files }
  match opened with
  | .error step => (.error (.refused path.text step), t)
  | .ok place =>
    if t.isFree place mode then
      let g : Guard := ⟨t.next, place, mode⟩
      (.ok g, { t with guards := g :: t.guards, next := t.next + 1 })
    else (.error (.timeout path.text purpose), t)

/-- The table without a guard. -/
def release (t : LockTable) (g : Guard) : LockTable :=
  { t with guards := t.guards.filter (·.id != g.id) }

/-- The content of a guarded file. -/
def read? (t : LockTable) (g : Guard) : Option ByteArray :=
  match t.files.node? g.place with
  | some (.file content) => some content
  | _ => none

/-- Replaces the content of a file that is held alone. -/
def write? (t : LockTable) (g : Guard) (content : ByteArray) : Option LockTable :=
  match g.mode with
  | .shared => none
  | .exclusive => (t.read? g).map fun _ => { t with files := t.files.put g.place (.file content) }

end LockTable

end Stencil
