import Stencil.Helper.Reference
import Stencil.Json.Printer
import Stencil.Text.Blank
import Stencil.Text.Html
import Stencil.Text.LetterCase

/-!
The references that every template can use: `Text` for texts, `Html` for markup.
-/

namespace Stencil.Library

/-- The text of a value: a string's own text, nothing for null, else the value on one line. -/
def asText : Json → String
  | .string s => s
  | .null => ""
  | v => v.compact

/-- A helper with one argument, which becomes a text. -/
def onText (f : List Char → List Char) : Helper where
  arity := .exactly 1
  run
    | v :: _ => .ok (.string (String.ofList (f (asText v).toList)))
    | [] => .error .missingArgument

/-- The argument at an index, which has to be a string. -/
def stringArg (args : List Json) (index : Nat) (helper : String) : Except HelperFault String :=
  match args[index]? with
  | some (.string s) => .ok s
  | _ => .error (.failed s!"{helper}: argument {index + 1} must be a string")

/-- The number of characters, items or members of a value. -/
def length : List Json → Except HelperFault Json
  | .string s :: _ => .ok (.ofNat s.length)
  | .array items :: _ => .ok (.ofNat items.length)
  | .object members :: _ => .ok (.ofNat members.length)
  | .null :: _ => .ok (.ofNat 0)
  | v :: _ => .error (.failed s!"Length: unsupported value {v.compact}")
  | [] => .error .missingArgument

/-- The texts of items joined by a separator. -/
def join (args : List Json) : Except HelperFault Json := do
  let separator ← stringArg args 1 "Join"
  match args.head? with
  | some (.array items) => return .string (separator.intercalate (items.map asText))
  | some _ => throw (.failed "Join: argument 1 must be an array")
  | none => throw .missingArgument

/-- The first argument, or the second one if the first is null or an empty text. -/
def fallback : List Json → Except HelperFault Json
  | .null :: other :: _ => .ok other
  | .string s :: rest =>
    if s ≠ "" then .ok (.string s)
    else match rest with
      | other :: _ => .ok other
      | [] => .error .missingArgument
  | [.null] => .error .missingArgument
  | v :: _ => .ok v
  | [] => .error .missingArgument

/-- The helpers on texts. -/
def text : Reference :=
  .ofList "Text" [
    ("Upper", onText Text.upper),
    ("Lower", onText Text.lower),
    ("Trim", onText Text.trim),
    ("Length", { arity := .exactly 1, run := length }),
    ("Concat", { arity := .atLeast 0, run := fun args => .ok (.string (String.join (args.map asText))) }),
    ("Join", { arity := .exactly 2, run := join }),
    ("Default", { arity := .exactly 2, run := fallback })]

/-- An attribute with its value encoded: nothing for null or false, the name alone for true. -/
def writeAttribute (args : List Json) : Except HelperFault Json := do
  let name ← stringArg args 0 "Attribute"
  let value : Option Json := args[1]?
  match value with
  | some .null | some (.bool false) => return .string ""
  | some (.bool true) => return .string s!" {name}"
  | some v =>
    let value := Text.htmlEncode (asText v)
    return .string s!" {name}=\"{value}\""
  | none => throw .missingArgument

/-- The helpers for markup. -/
def html : Reference :=
  .ofList "Html" [
    ("Encode", onText fun cs => cs.flatMap Text.htmlEncodeChar),
    ("Attribute", { arity := .exactly 2, markup := true, run := writeAttribute })]

/-- The references of every compilation. -/
def defaults : List Reference := [text, html]

end Stencil.Library
