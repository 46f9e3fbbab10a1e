import Stencil.ClassName
import Stencil.Lock.Table

/-!
Artifacts: binaries kept in files. A binary is written to a file of its own, named for its template's class,
while the file is locked alone, and read back while it is shared; the shared lock may be kept.
-/

namespace Stencil

/-- Why a binary is not kept in a file. -/
inductive ArtifactFault
  | lock (fault : LockFault)
  /-- Every name that was tried is in use. -/
  | noUnusedName
  /-- The file cannot be written or read any more. -/
  | unusable
deriving DecidableEq

/-- The wording of a fault. -/
def ArtifactFault.message : ArtifactFault → String
  | lock fault => fault.message
  | noUnusedName => "could not find an unused artifact file name"
  | unusable => "the file cannot be written or read"

/-- A binary that is kept in a file. -/
structure Artifact where
  path : FilePath
  /-- The lock that is held on the file. -/
  guard : Option Guard
deriving DecidableEq

/-- The file name of an artifact. -/
def Artifact.name (a : Artifact) : String := a.path.name?.getD ""

/-- The ending of the name of an artifact's file. -/
def Artifact.extension : String := "rkt"

/-- Where binaries are kept: in memory only if there is no folder. -/
structure ArtifactStore where
  folder : Option FilePath := none
  locks : LockTable := {}
  /-- Keep the lock on a file that was read back. -/
  keepLocks : Bool := false
  /-- Tells the names of files apart. -/
  sequence : Nat := 0

namespace ArtifactStore

/-- The name of an artifact's file: the class name and twelve digits of a digest. -/
def fileName (className : ClassName) (sequence : Nat) : String :=
  let digest := Sha256.hexDigest (s!"{className.text} {sequence}").toUTF8.toList
  let digits := String.ofList (digest.toList.take 12)
  s!"{className.text}-{digits}.{Artifact.extension}"

/-- The first unused path of some tries, and the number after it. -/
def unusedPath? (files : FileTree) (folder : FilePath) (className : ClassName) :
    Nat → Nat → Option (FilePath × Nat)
  | 0, _ => none
  | tries + 1, sequence =>
    let path := folder.join (fileName className sequence)
    if (files.get? path).isNone then some (path, sequence + 1)
    else unusedPath? files folder className tries (sequence + 1)

/-- How many names are tried. -/
def nameTries : Nat := 16

/-- Writes a binary to a file and reads it back; a failure comes with the path at fault. -/
def persist (s : ArtifactStore) (folder : FilePath) (className : ClassName) (binary : String) :
    Except (String × ArtifactFault) (String × Artifact) × ArtifactStore :=
  match unusedPath? s.locks.files folder className nameTries s.sequence with
  | none => (.error (folder.text, .noUnusedName), { s with sequence := s.sequence + nameTries })
  | some (path, sequence) =>
    let s := { s with sequence }
    let (writer, locks) := s.locks.acquire path .exclusive "write compiled template"
    let s := { s with locks }
    match writer with
    | .error fault => (.error (path.text, .lock fault), s)
    | .ok writer =>
      match s.locks.write? writer binary.toUTF8 with
      | none => (.error (path.text, .unusable), { s with locks := s.locks.release writer })
      | some locks =>
        let (reader, locks) := (locks.release writer).acquire path .shared "load compiled template"
        let s := { s with locks }
        match reader with
        | .error fault => (.error (path.text, .lock fault), s)
        | .ok reader =>
          match (s.locks.read? reader).bind String.fromUTF8? with
          | none => (.error (path.text, .unusable), { s with locks := s.locks.release reader })
          | some text =>
            if s.keepLocks then (.ok (text, ⟨path, some reader⟩), s)
            else (.ok (text, ⟨path, none⟩), { s with locks := s.locks.release reader })

end ArtifactStore

end Stencil
