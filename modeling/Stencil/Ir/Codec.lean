import Stencil.Ir.Module
import Stencil.Json.Literal
import Stencil.Json.Parser
import Stencil.Json.Printer
import Stencil.Json.Record

/-!
Compiled modules as texts. A binary is the JSON text of a module, on one line or indented; both read back to
the same module. When a binary is read, the arrays and objects that make up the module may nest 127 deep; members
that no record knows are skipped, whatever well-formed text they hold.
-/

namespace Stencil.Ir

open Json (Draft ofOption variant)
open Json.Draft (fields? variant? isUnit asString? asBool? asCount? asList? optional?)

-- Powers are those of the natural numbers themselves, also where monoids are at hand.
attribute [local instance (high)] instPowNat

/-! ### Writing -/

/-- A place as a record. -/
def posJson (p : SourcePos) : Json := .object [("line", .ofNat p.line), ("column", .ofNat p.column)]

/-- A place, or null. -/
def posJson? : Option SourcePos → Json := ofOption posJson

/-- An import as a record. -/
def Import.toJson (i : Import) : Json := .object [("namespace", .string i.space), ("name", .string i.name)]

/-- A callee as a variant. -/
def Callee.toJson : Callee → Json
  | builtin b => variant "Builtin" (.string b.name)
  | function index => variant "Function" (.ofNat index)
  | helper slot => variant "Helper" (.ofNat slot)

/-- The name of an operator. -/
def BinaryOp.name : BinaryOp → String
  | eq => "Eq"
  | ne => "Ne"
  | and => "And"
  | or => "Or"

mutual

/-- An expression as a variant. -/
def Expr.toJson : Expr → Json
  | .literal v => variant "Literal" v
  | .model => .string "Model"
  | .var name => variant "Local" (.string name)
  | .member target name => variant "Member" (.object [("target", target.toJson), ("name", .string name)])
  | .call callee args => variant "Call" (.object [("callee", callee.toJson), ("args", .array (exprsJson args))])
  | .not operand => variant "Not" operand.toJson
  | .binary op lhs rhs =>
    variant "Binary" (.object [("op", .string op.name), ("lhs", lhs.toJson), ("rhs", rhs.toJson)])

/-- Expressions as variants. -/
def exprsJson : List Expr → List Json
  | [] => []
  | e :: es => e.toJson :: exprsJson es

end

mutual

/-- A statement as a variant. -/
def Stmt.toJson : Stmt → Json
  | .write text => variant "Write" (.string text)
  | .emit expr pos => variant "Emit" (.object [("expr", expr.toJson), ("at", posJson? pos)])
  | .bind name expr pos =>
    variant "Let" (.object [("name", .string name), ("expr", expr.toJson), ("at", posJson? pos)])
  | .ifElse branches otherwise pos =>
    variant "If" (.object [("branches", .array (branchesJson branches)),
      ("otherwise", match otherwise with
        | none => .null
        | some body => .array (stmtsJson body)),
      ("at", posJson? pos)])
  | .forEach var source body pos =>
    variant "ForEach" (.object [("var", .string var), ("source", source.toJson),
      ("body", .array (stmtsJson body)), ("at", posJson? pos)])
  | .defineSection index => variant "DefineSection" (.object [("section", .ofNat index)])

/-- Branches as records. -/
def branchesJson : List Branch → List Json
  | [] => []
  | .mk cond body :: rest =>
    .object [("cond", cond.toJson), ("body", .array (stmtsJson body))] :: branchesJson rest

/-- Statements as variants. -/
def stmtsJson : List Stmt → List Json
  | [] => []
  | s :: ss => s.toJson :: stmtsJson ss

end

/-- A function as a record. -/
def Function.toJson (f : Function) : Json :=
  .object [("name", .string f.name), ("params", .array (f.params.map .string)), ("body", f.body.toJson),
    ("at", posJson? f.pos)]

/-- A section as a record. -/
def Section.toJson (s : Section) : Json :=
  .object [("name", .string s.name), ("body", .array (stmtsJson s.body))]

/-- A module as a record. -/
def Module.toJson (m : Module) : Json :=
  .object [("format", .ofNat m.format), ("namespace", .string m.space), ("class_name", .string m.className),
    ("base_type", .string m.baseType), ("model_type", .string m.modelType),
    ("usings", .array (m.usings.map .string)), ("layout", ofOption .string m.layout),
    ("layout_inherited", .bool m.layoutInherited), ("imports", .array (m.imports.map Import.toJson)),
    ("functions", .array (m.functions.map Function.toJson)),
    ("sections", .array (m.sections.map Section.toJson)), ("body", .array (stmtsJson m.body))]

/-- The binary of a module, indented if it is to be looked at. -/
def Module.encode (debug : Bool) (m : Module) : String :=
  if debug then m.toJson.pretty else m.toJson.compact

/-! ### Reading -/

/-- The limit of indices and places. -/
def countLimit : Nat := 2 ^ (64 : Nat)

/-- The limit of format versions. -/
def formatLimit : Nat := 2 ^ (32 : Nat)

/-- The place that a record spells. -/
def posOfDraft? (d : Draft) : Option SourcePos := do
  match ← fields? ["line", "column"] d with
  | [some line, some column] => return ⟨← asCount? countLimit line, ← asCount? countLimit column⟩
  | _ => none

/-- The import that a record spells. -/
def Import.ofDraft? (d : Draft) : Option Import := do
  match ← fields? ["namespace", "name"] d with
  | [some space, some name] => return ⟨← asString? space, ← asString? name⟩
  | _ => none

/-- The builtin that a variant spells. -/
def Builtin.ofDraft? (d : Draft) : Option Builtin := do
  let (name, content) ← variant? d
  if isUnit content then Builtin.ofName? name else none

/-- The callee that a variant spells. -/
def Callee.ofDraft? (d : Draft) : Option Callee := do
  match ← variant? d with
  | ("Builtin", some c) => return builtin (← Builtin.ofDraft? c)
  | ("Function", some c) => return function (← asCount? countLimit c)
  | ("Helper", some c) => return helper (← asCount? countLimit c)
  | _ => none

/-- The operator that a variant spells. -/
def BinaryOp.ofDraft? (d : Draft) : Option BinaryOp := do
  let (name, content) ← variant? d
  if isUnit content then [eq, ne, and, or].find? (·.name == name) else none

/-- The expression that a variant spells, read at most `depth` values deep. -/
def Expr.ofDraft? : Nat → Draft → Option Expr
  | 0, _ => none
  | depth + 1, d => do
    match ← variant? d with
    | ("Literal", some c) => return literal (← c.value?).canonical
    | ("Model", content) => if isUnit content then some model else none
    | ("Local", some c) => return var (← asString? c)
    | ("Member", some c) =>
      match ← fields? ["target", "name"] c with
      | [some target, some name] => return member (← Expr.ofDraft? depth target) (← asString? name)
      | _ => none
    | ("Call", some c) =>
      match ← fields? ["callee", "args"] c with
      | [some callee, some args] =>
        return call (← Callee.ofDraft? callee) (← asList? (Expr.ofDraft? depth) args)
      | _ => none
    | ("Not", some c) => return not (← Expr.ofDraft? depth c)
    | ("Binary", some c) =>
      match ← fields? ["op", "lhs", "rhs"] c with
      | [some op, some lhs, some rhs] =>
        return binary (← BinaryOp.ofDraft? op) (← Expr.ofDraft? depth lhs) (← Expr.ofDraft? depth rhs)
      | _ => none
    | _ => none

/-- The branch that a record spells, given the reader of its statements. -/
def Branch.ofDraft? (depth : Nat) (stmt : Draft → Option Stmt) (d : Draft) : Option Branch := do
  match ← fields? ["cond", "body"] d with
  | [some cond, some body] => return mk (← Expr.ofDraft? depth cond) (← asList? stmt body)
  | _ => none

/-- The statement that a variant spells, read at most `depth` values deep. -/
def Stmt.ofDraft? : Nat → Draft → Option Stmt
  | 0, _ => none
  | depth + 1, d => do
    match ← variant? d with
    | ("Write", some c) => return write (← asString? c)
    | ("Emit", some c) =>
      match ← fields? ["expr", "at"] c with
      | [some expr, pos] => return emit (← Expr.ofDraft? depth expr) (← optional? posOfDraft? pos)
      | _ => none
    | ("Let", some c) =>
      match ← fields? ["name", "expr", "at"] c with
      | [some name, some expr, pos] =>
        return bind (← asString? name) (← Expr.ofDraft? depth expr) (← optional? posOfDraft? pos)
      | _ => none
    | ("If", some c) =>
      match ← fields? ["branches", "otherwise", "at"] c with
      | [some branches, otherwise, pos] =>
        return ifElse (← asList? (Branch.ofDraft? depth (Stmt.ofDraft? depth)) branches)
          (← optional? (asList? (Stmt.ofDraft? depth)) otherwise) (← optional? posOfDraft? pos)
      | _ => none
    | ("ForEach", some c) =>
      match ← fields? ["var", "source", "body", "at"] c with
      | [some name, some source, some body, pos] =>
        return forEach (← asString? name) (← Expr.ofDraft? depth source)
          (← asList? (Stmt.ofDraft? depth) body) (← optional? posOfDraft? pos)
      | _ => none
    | ("DefineSection", some c) =>
      match ← fields? ["section"] c with
      | [some index] => return defineSection (← asCount? countLimit index)
      | _ => none
    | _ => none

/-- The function that a record spells. -/
def Function.ofDraft? (depth : Nat) (d : Draft) : Option Function := do
  match ← fields? ["name", "params", "body", "at"] d with
  | [some name, some params, some body, pos] =>
    return ⟨← asString? name, ← asList? asString? params, ← Expr.ofDraft? depth body,
      ← optional? posOfDraft? pos⟩
  | _ => none

/-- The section that a record spells. -/
def Section.ofDraft? (depth : Nat) (d : Draft) : Option Section := do
  match ← fields? ["name", "body"] d with
  | [some name, some body] => return ⟨← asString? name, ← asList? (Stmt.ofDraft? depth) body⟩
  | _ => none

/-- The module that a record spells; a missing mark of an inherited layout is false. -/
def Module.ofDraft? (depth : Nat) (d : Draft) : Option Module := do
  match ← fields? ["format", "namespace", "class_name", "base_type", "model_type", "usings", "layout",
      "layout_inherited", "imports", "functions", "sections", "body"] d with
  | [some format, some space, some className, some baseType, some modelType, some usings, layout, inherited,
      some imports, some functions, some sections, some body] =>
    return {
      format := ← asCount? formatLimit format
      space := ← asString? space
      className := ← asString? className
      baseType := ← asString? baseType
      modelType := ← asString? modelType
      usings := ← asList? asString? usings
      layout := ← optional? asString? layout
      layoutInherited := ← match inherited with
        | some b => asBool? b
        | none => some false
      imports := ← asList? Import.ofDraft? imports
      functions := ← asList? (Function.ofDraft? depth) functions
      sections := ← asList? (Section.ofDraft? depth) sections
      body := ← asList? (Stmt.ofDraft? depth) body }
  | _ => none

/-- How deep the arrays and objects of a module may nest. -/
def maxNesting : Nat := 127

/-- The module of a binary. -/
def Module.decode? (binary : String) : Option Module := do
  Module.ofDraft? (maxNesting + 1) (← Draft.parse? maxNesting binary)

end Stencil.Ir
