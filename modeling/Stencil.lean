import Stencil.Artifact.Store
import Stencil.Cache.Basic
import Stencil.Cache.Race
import Stencil.Cache.Script
import Stencil.ClassName
import Stencil.Compile.Compiler
import Stencil.Compile.Notice
import Stencil.Compile.Template
import Stencil.Config.Document
import Stencil.Config.Settings
import Stencil.Decimal.Layout
import Stencil.Decimal.Shortest
import Stencil.Diagnostic
import Stencil.Digest.Sha256
import Stencil.Engine.Basic
import Stencil.Engine.Builder
import Stencil.Engine.History
import Stencil.File.Path
import Stencil.File.Tree
import Stencil.Helper.Library
import Stencil.Helper.Reference
import Stencil.Ir.Codec
import Stencil.Ir.Erasure
import Stencil.Ir.Module
import Stencil.Ir.Program
import Stencil.Json.Draft
import Stencil.Json.Literal
import Stencil.Json.Numeral
import Stencil.Json.Parser
import Stencil.Json.Printer
import Stencil.Json.Record
import Stencil.Json.Token
import Stencil.Json.Value
import Stencil.Lock.Fault
import Stencil.Lock.Table
import Stencil.Markup.Document
import Stencil.Markup.Fault
import Stencil.Markup.Nesting
import Stencil.Markup.Parser
import Stencil.Markup.Printer
import Stencil.Markup.Region
import Stencil.ModelType
import Stencil.Render.Chain
import Stencil.Render.Context
import Stencil.Render.Failure
import Stencil.Render.Interpreter
import Stencil.Render.Scene
import Stencil.Render.Script
import Stencil.Render.Value
import Stencil.Source.Folder
import Stencil.Source.Item
import Stencil.Source.Key
import Stencil.Source.Memory
import Stencil.SourceMap
import Stencil.TemplateError
import Stencil.Text.Blank
import Stencil.Text.CaseTable
import Stencil.Text.Cursor
import Stencil.Text.Cut
import Stencil.Text.Hex
import Stencil.Text.Html
import Stencil.Text.LetterCase
import Stencil.Text.Name
import Stencil.Text.NameSet
import Stencil.Text.Position
import Stencil.Text.Utf8
import Stencil.Toml.Document
import Stencil.Toml.Quoted
import Stencil.Toml.Scalar
import Stencil.Toml.Table
import Stencil.Toml.Value
import Stencil.Unit.Build
import Stencil.Unit.Fault
import Stencil.Unit.Generated
import Stencil.Unit.Grammar
import Stencil.Unit.Lexer
import Stencil.Unit.Line
import Stencil.Unit.Lowering
import Stencil.Unit.OfMarkup
import Stencil.Unit.Parser
import Stencil.Unit.Pragma
import Stencil.Unit.Problem
import Stencil.Unit.Token
import Stencil.Unit.Tree
import Stencil.Proofs.Decimal.Shortest
import Stencil.Proofs.Json.Numeral
import Stencil.Proofs.Json.Literal
import Stencil.Proofs.Json.Reading
import Stencil.Proofs.Json.Nesting
import Stencil.Proofs.Json.Canonical
import Stencil.Proofs.Ir.Codec
import Stencil.Proofs.Ir.RoundTrip
import Stencil.Proofs.Unit.Resolution
import Stencil.Proofs.Unit.Soundness
import Stencil.Proofs.Unit.Modules
import Stencil.Proofs.Unit.Loading
import Stencil.Proofs.Unit.Loaded
import Stencil.Proofs.Render.Failing
import Stencil.Proofs.Render.Running
import Stencil.Proofs.Render.Registering
import Stencil.Proofs.Unit.Checked
import Stencil.Proofs.Unit.Circles
import Stencil.Proofs.Unit.TypeSoundness
import Stencil.Proofs.Unit.Reading
import Stencil.Proofs.Unit.Expressions
import Stencil.Proofs.Unit.Places
import Stencil.Proofs.Unit.Accepting
import Stencil.Proofs.Unit.Pragmas
import Stencil.Proofs.Unit.Derivations
import Stencil.Proofs.Cache.SingleFlight
import Stencil.Proofs.Cache.Invalidation
import Stencil.Proofs.Cache.Waiting
import Stencil.Proofs.Unit.Containment
import Stencil.Proofs.Engine.LiteralText
import Stencil.Proofs.Engine.Keeping
import Stencil.Proofs.Engine.Storing
import Stencil.Proofs.Engine.Transparency
import Stencil.Proofs.Render.Tracing
import Stencil.Proofs.Render.Defining
import Stencil.Proofs.Engine.Turns
import Stencil.Proofs.Render.Sections
import Stencil.Proofs.Engine.Layouts
import Stencil.Proofs.Render.Frames
import Stencil.Proofs.Render.Nested
import Stencil.Proofs.Render.Hiding
import Stencil.Proofs.Render.Ending
import Stencil.Proofs.Engine.Ending
import Stencil.Proofs.Engine.LayoutChains
import Stencil.Proofs.Markup.RoundTrip
import Stencil.Proofs.Render.Encoded
import Stencil.Proofs.Render.Maps
import Stencil.Proofs.Engine.ModelNames
import Stencil.Proofs.Ir.Erasure
import Stencil.Proofs.Render.Placing
import Stencil.Proofs.Unit.Marking
import Stencil.Proofs.Unit.Moving
import Stencil.Proofs.Unit.PragmaFree
import Stencil.Proofs.Source.Imports
import Stencil.Proofs.Unit.Nearest
import Stencil.Proofs.Unit.Flattening
import Stencil.Proofs.Engine.SectionBodies
import Stencil.Proofs.Render.Locating
import Stencil.Proofs.Unit.Located
import Stencil.Proofs.Source.Keys
import Stencil.Proofs.Markup.Regions
import Stencil.Proofs.Source.Providers
import Stencil.Proofs.Unit.SectionScopes
import Stencil.Proofs.Helper.Attributes
import Stencil.Proofs.Markup.LayoutKeys
import Stencil.Proofs.Json.Doubles
import Stencil.Proofs.Unit.Comparisons
import Stencil.Proofs.Unit.TokenPlaces
import Stencil.Proofs.Unit.HeaderPlaces
import Stencil.Proofs.Markup.Splitting
import Stencil.Proofs.Markup.Readers
import Stencil.Proofs.Markup.SectionNames
import Stencil.Proofs.Markup.Invariants
