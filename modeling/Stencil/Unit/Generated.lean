import Stencil.ClassName
import Stencil.Markup.Parser
import Stencil.ModelType
import Stencil.Text.NameSet
import Stencil.Unit.OfMarkup

/-!
Units generated from templates. A unit is a class: its namespaces, its base type and model type, the
template's layout, its functions and sections, and the statements of its body. Import files lend a template
their directives: of each directive the template's own one counts, else that of the nearest import file.
-/

namespace Stencil

/-- The text of a template under its key. -/
structure TemplateSource where
  key : String
  content : String
  /-- The path of the template's file, if it has one. -/
  path : Option String := none
deriving DecidableEq

/-- What a unit is generated and compiled for. -/
structure TypeContext where
  className : ClassName
  /-- The namespaces that every unit uses. -/
  namespaces : List String := []
  baseType : BaseType := .html
  modelType : ModelType := .dynamic

namespace Unit

open Markup (Directive Directives FunctionDecl Document Node ParseError)

/-- The namespace of every unit. -/
def unitNamespace : String := "CompiledTemplates.Dynamic"

/-- A generated unit. -/
structure Generated where
  template : String
  className : ClassName
  source : String
  path : Option String := none

/-! ### Import files -/

/-- A directive's value, and its place if the template itself gives it. -/
structure Merged where
  value : String
  pos : Option SourcePos

namespace Merged

/-- The value of a directive of the template itself. -/
def own (d : Directive) : Merged := ⟨d.value, some d.pos⟩

/-- The value of a directive of an import file. -/
def imported (d : Directive) : Merged := ⟨d.value, none⟩

end Merged

/-- What a template's import files declare. -/
structure Imported where
  usings : List String := []
  model : Option Merged := none
  inherits : Option Merged := none
  layout : Option Merged := none
  functions : List FunctionDecl := []

namespace Imported

/-- What is declared with one more import file, whose directives count before those so far. A function takes
the place of one with the same name. -/
def add (m : Imported) (ds : Directives) : Imported where
  usings := m.usings ++ ds.usings.map (·.value)
  model := (ds.model.map .imported).or m.model
  inherits := (ds.inherits.map .imported).or m.inherits
  layout := (ds.layout.map .imported).or m.layout
  functions := ds.functions.foldl (fun fs f => fs.filter (·.name != f.name) ++ [f]) m.functions

/-- What import files declare together, farthest file first. -/
def ofFiles (files : List TemplateSource) : Except ParseError Imported :=
  files.foldlM (fun m file => return m.add (← Markup.parse file.key file.content).directives) {}

end Imported

/-! ### The text of a unit -/

/-- What a template and its import files declare. -/
structure Declared where
  usings : List String
  model : Option Merged
  inherits : Option Merged
  layout : Option Merged
  /-- The layout comes from an import file. -/
  layoutInherited : Bool
  importedFunctions : List FunctionDecl
  ownFunctions : List FunctionDecl

/-- The declarations of a template, which count before those of its import files. -/
def Declared.merge (m : Imported) (ds : Directives) : Declared where
  usings := m.usings ++ ds.usings.map (·.value)
  model := (ds.model.map .own).or m.model
  inherits := (ds.inherits.map .own).or m.inherits
  layout := (ds.layout.map .own).or m.layout
  layoutInherited := ds.layout.isNone && m.layout.isSome
  importedFunctions := m.functions.filter fun f => !ds.functions.any (·.name == f.name)
  ownFunctions := ds.functions

/-- The namespaces a unit uses: those its base type requires, those of the context, and its own ones. -/
def usedNamespaces (bases : List BaseType) (context : TypeContext) (d : Declared) : List String :=
  let base := match d.inherits with
    | some name => BaseType.find? bases name.value
    | none => some context.baseType
  Text.sortedSet ((base.map (·.requiredNamespaces)).getD [] ++ context.namespaces ++ d.usings)

/-- The lines of the class header. Of the two names in it, the base type has the pragma if the template
gives it, else the model type. -/
def headerLines (context : TypeContext) (d : Declared) : List Line :=
  let header := s!"internal class {context.className.text} : "
  let base := (d.inherits.map (·.value)).getD context.baseType.name
  let model := (d.model.map (·.value)).getD context.modelType.name
  match d.inherits.bind (·.pos), d.model.bind (·.pos) with
  | some pos, _ => Line.mapped 0 (some pos) header base s!"<{model}>"
  | none, some pos => Line.mapped 0 (some pos) s!"{header}{base}<" model ">"
  | none, none => [.code 0 s!"{header}{base}<{model}>"]

/-- The lines of the layout. An inherited one applies only when the template renders as a page. -/
def layoutLines (d : Declared) : List Line :=
  match d.layout with
  | none => []
  | some layout =>
    Line.mapped 1 layout.pos (if d.layoutInherited then "default layout " else "layout ")
      (Json.quote layout.value) ";"

/-- The lines of a function, with its place if it is the template's own. -/
def functionLines (own : Bool) (f : FunctionDecl) : List Line :=
  let params := ", ".intercalate f.params
  Line.mapped 1 (if own then some f.pos else none) s!"function {f.name}({params}) => " f.code ";"

/-- The lines of a section's body; other nodes have none. -/
def sectionLines : Node → List Line
  | .sectionDef name _ body =>
    .blank :: .code 1 s!"section {Json.quote name}" :: braced 1 (nodeListLines 2 body)
  | _ => []

/-- The lines of a unit. -/
def unitLines (key : String) (bases : List BaseType) (context : TypeContext) (d : Declared)
    (nodes : List Node) : List Line :=
  [.code 0 "// <auto-generated />", .code 0 s!"// template: {Line.singleLine key}",
    .code 0 s!"namespace {unitNamespace};", .blank] ++
  (usedNamespaces bases context d).map (fun ns => .code 0 s!"using {ns};") ++
  .blank :: headerLines context d ++
  .code 0 "\x7b" :: layoutLines d ++
  d.importedFunctions.flatMap (functionLines false) ++
  d.ownFunctions.flatMap (functionLines true) ++
  nodes.flatMap sectionLines ++
  .blank :: .code 1 "execute" :: braced 1 (nodeListLines 2 nodes) ++
  [.code 0 "\x7d"]

/-- How units are generated. -/
structure Generator where
  /-- Write pragmas. -/
  pragmas : Bool := true
  /-- The base types whose required namespaces a unit uses when it inherits from them. -/
  baseTypes : List BaseType := BaseType.builtins

/-- The unit of a template with its import files, farthest one first. -/
def Generator.generate (g : Generator) (source : TemplateSource) (imports : List TemplateSource)
    (context : TypeContext) : Except ParseError Generated := do
  let imported ← Imported.ofFiles imports
  let document ← Markup.parse source.key source.content
  let declared := Declared.merge imported document.directives
  return {
    template := source.key
    className := context.className
    source := Line.render (Line.select g.pragmas
      (unitLines source.key g.baseTypes context declared document.nodes))
    path := source.path }

end Unit

end Stencil
