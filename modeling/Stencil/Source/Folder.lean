import Stencil.File.Tree
import Stencil.Source.Item

/-!
Templates held in files below a root. A key is the path of its file without the configured extension, unless
the key's last segment has an extension of its own.
-/

namespace Stencil

/-- Where the files of templates are. -/
structure TemplateFolder where
  /-- The folder that keys start in. -/
  root : FilePath
  /-- The extension of files, without a dot. -/
  extension : String

namespace TemplateFolder

/-- The folder with an extension that may start with dots. -/
def make (root : FilePath) (extension : String) : TemplateFolder :=
  ⟨root, String.ofList (extension.toList.dropWhile (· == '.'))⟩

/-- The path of the file for a key; nothing if the extension would have to be added and is more than that. -/
def path? (f : TemplateFolder) (key : String) : Option FilePath :=
  let path := f.root.join key
  if (⟨key⟩ : FilePath).hasExtension || f.extension == "" then some path
  else if f.extension.toList.contains '/' then none
  else some (path.addExtension f.extension)

/-- The content of the file under a path. -/
def content (files : FilePath → Option ByteArray) (path : FilePath) : SourceContent :=
  match files path with
  | none => .missing
  | some bytes => match String.fromUTF8? bytes with
    | some content => .text content
    | none => .notText

/-- What is found under a key. -/
def lookup (f : TemplateFolder) (files : FilePath → Option ByteArray) (key : String) : Except SourceFault SourceItem :=
  match f.path? key with
  | some path => .ok ⟨key, content files path, some path.text⟩
  | none => .error (.unusableExtension f.extension)

/-- The templates among given files as a provider. -/
def provider (f : TemplateFolder) (files : FilePath → Option ByteArray) : SourceProvider := .ofLookup (f.lookup files)

end TemplateFolder

/-- The files of templates. -/
structure FolderSource extends TemplateFolder where
  files : FileTree

namespace FolderSource

/-- The source with an extension that may start with dots. -/
def make (root : FilePath) (extension : String) (files : FileTree) : FolderSource :=
  ⟨.make root extension, files⟩

/-- The files as a provider. -/
def provider (s : FolderSource) : SourceProvider := s.toTemplateFolder.provider s.files.content?

end FolderSource

end Stencil
