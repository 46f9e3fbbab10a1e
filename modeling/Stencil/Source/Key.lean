import Stencil.Text.Blank
import Stencil.Text.Name

/-!
Template keys. A key is a relative path with `/` between its segments; blanks around it and a leading `~` or
`/` are ignored.
-/

namespace Stencil

/-- Why a text is no template key. -/
inductive KeyFault
  | empty
  | backslash
  /-- A segment is empty, `.` or `..`. -/
  | segment
deriving DecidableEq

/-- The wording of a fault in a key. -/
def KeyFault.describe : KeyFault → String
  | empty => "key is empty"
  | backslash => "use '/' as the separator"
  | segment => "key must be a relative path without '.' or '..' segments"

/-- Why a template's text cannot be had. -/
inductive SourceFault
  | notFound (key : String)
  | invalidKey (key : String) (fault : KeyFault)
  /-- The file is no text. -/
  | notText (key path : String)
  /-- The extension of files leads to other folders. -/
  | unusableExtension (extension : String)
deriving DecidableEq

/-- The wording of a fault in a template's source. -/
def SourceFault.message : SourceFault → String
  | notFound key => s!"TEMPLATE_NOT_FOUND: template '{key}' does not exist"
  | invalidKey key fault => s!"TEMPLATE_KEY_INVALID: '{key}': {fault.describe}"
  | notText _ path => s!"TEMPLATE_READ_ERROR: failed to read '{path}': stream did not contain valid UTF-8"
  | unusableExtension extension => s!"extension cannot contain path separators: '{extension}'"

namespace TemplateKey

/-- A text without one leading tilde. -/
def dropTilde : List Char → List Char
  | '~' :: cs => cs
  | cs => cs

/-- What is left of a text without the marks of the root. -/
def bare (cs : List Char) : List Char :=
  (dropTilde (Text.trim cs)).dropWhile (· == '/')

/-- A segment that leads nowhere below the root. -/
def isBadSegment (cs : List Char) : Bool :=
  cs == [] || cs == ['.'] || cs == ['.', '.']

/-- The fault of a bare text, if it has one. -/
def fault? (cs : List Char) : Option KeyFault :=
  if cs = [] then some .empty
  else if cs.contains '\\' then some .backslash
  else if (Text.fields '/' cs).any isBadSegment then some .segment
  else none

/-- The normalized key of a text. -/
def normalize (key : String) : Except KeyFault String :=
  let cs := bare key.toList
  match fault? cs with
  | some fault => .error fault
  | none => .ok (String.ofList cs)

/-- The prefixes of a path that end before one of its segments, shortest first, each after a given prefix. -/
def prefixesFrom (before : List Char) : List (List Char) → List (List Char)
  | [] | [_] => [before]
  | segment :: rest => before :: prefixesFrom (before ++ segment ++ ['/']) rest

/-- The directories of a normalized key from the root down, each with a final `/`. -/
def directories (key : String) : List String :=
  (prefixesFrom [] (Text.fields '/' key.toList)).map String.ofList

end TemplateKey

end Stencil
