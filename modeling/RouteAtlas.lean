import RouteAtlas.CommandLine.Arguments
import RouteAtlas.CommandLine.Command
import RouteAtlas.CommandLine.Display
import RouteAtlas.CommandLine.Help
import RouteAtlas.CommandLine.Run
import RouteAtlas.Controllers.Argument
import RouteAtlas.Controllers.Bootstrap
import RouteAtlas.Controllers.Handlers
import RouteAtlas.Controllers.Path
import RouteAtlas.Controllers.Request
import RouteAtlas.Detection
import RouteAtlas.Extraction
import RouteAtlas.Fault
import RouteAtlas.FileRoutes.Analysis
import RouteAtlas.FileRoutes.App
import RouteAtlas.FileRoutes.Evidence
import RouteAtlas.FileRoutes.Location
import RouteAtlas.FileRoutes.Methods
import RouteAtlas.FileRoutes.PageMethods
import RouteAtlas.FileRoutes.Pages
import RouteAtlas.Files.Path
import RouteAtlas.Files.Tree
import RouteAtlas.Glob
import RouteAtlas.Json.Printer
import RouteAtlas.Json.Reader
import RouteAtlas.Json.WithComments
import RouteAtlas.Lint
import RouteAtlas.Log
import RouteAtlas.Main
import RouteAtlas.Number.Binary64
import RouteAtlas.Number.Numeral
import RouteAtlas.Options
import RouteAtlas.PathCache
import RouteAtlas.Procedures.Basic
import RouteAtlas.Procedures.Chain
import RouteAtlas.Procedures.Composition
import RouteAtlas.Procedures.Entry
import RouteAtlas.Procedures.Evidence
import RouteAtlas.Procedures.Recognition
import RouteAtlas.Procedures.Survey
import RouteAtlas.Project.Config
import RouteAtlas.Project.Loader
import RouteAtlas.Project.Modules
import RouteAtlas.Project.Symbols
import RouteAtlas.Proofs.AliasedMethods
import RouteAtlas.Proofs.BraceChoices
import RouteAtlas.Proofs.CanonicalNames
import RouteAtlas.Proofs.CircularMounts
import RouteAtlas.Proofs.ClassedExamples
import RouteAtlas.Proofs.CommentedExpressions
import RouteAtlas.Proofs.Constructs
import RouteAtlas.Proofs.ContentTypes
import RouteAtlas.Proofs.DeclarationOrder
import RouteAtlas.Proofs.DirectoryGlobs
import RouteAtlas.Proofs.DynamicSegments
import RouteAtlas.Proofs.Entries
import RouteAtlas.Proofs.EnumerationValues
import RouteAtlas.Proofs.ExampleDepth
import RouteAtlas.Proofs.ExampleMarkers
import RouteAtlas.Proofs.ExportedSymbols
import RouteAtlas.Proofs.ExpressionPieces
import RouteAtlas.Proofs.ExtendedConfigs
import RouteAtlas.Proofs.FileIsolation
import RouteAtlas.Proofs.FileParts
import RouteAtlas.Proofs.FileSources
import RouteAtlas.Proofs.FilteredFiles
import RouteAtlas.Proofs.GenericTypes
import RouteAtlas.Proofs.GlobSegments
import RouteAtlas.Proofs.GlobbedRoutes
import RouteAtlas.Proofs.HandlerOrigins
import RouteAtlas.Proofs.Independence
import RouteAtlas.Proofs.Inheritance
import RouteAtlas.Proofs.InheritedFields
import RouteAtlas.Proofs.JsonChanges
import RouteAtlas.Proofs.JsonCommas
import RouteAtlas.Proofs.JsonComments
import RouteAtlas.Proofs.JsonReading
import RouteAtlas.Proofs.JsonRenderings
import RouteAtlas.Proofs.JsonSettings
import RouteAtlas.Proofs.JsonTokens
import RouteAtlas.Proofs.LetterCase
import RouteAtlas.Proofs.LiteralParts
import RouteAtlas.Proofs.LiteralReadings
import RouteAtlas.Proofs.LostComments
import RouteAtlas.Proofs.Markers
import RouteAtlas.Proofs.MatchedMounts
import RouteAtlas.Proofs.MethodReferences
import RouteAtlas.Proofs.MountCycles
import RouteAtlas.Proofs.MountedVariables
import RouteAtlas.Proofs.NamedExpressions
import RouteAtlas.Proofs.NamedMethods
import RouteAtlas.Proofs.NamedTrees
import RouteAtlas.Proofs.NearestNumbers
import RouteAtlas.Proofs.NestedProcedures
import RouteAtlas.Proofs.NestingLimit
import RouteAtlas.Proofs.NumberTexts
import RouteAtlas.Proofs.ObjectMethods
import RouteAtlas.Proofs.OutlinePaths
import RouteAtlas.Proofs.PathForms
import RouteAtlas.Proofs.PathLookups
import RouteAtlas.Proofs.PatternNames
import RouteAtlas.Proofs.PlainPaths
import RouteAtlas.Proofs.PrintedValues
import RouteAtlas.Proofs.ProcedureChains
import RouteAtlas.Proofs.ProjectFiles
import RouteAtlas.Proofs.RecordPlaces
import RouteAtlas.Proofs.RememberedPaths
import RouteAtlas.Proofs.ReportDocuments
import RouteAtlas.Proofs.ReportedRoutes
import RouteAtlas.Proofs.ReportedVerbs
import RouteAtlas.Proofs.ResolvedPaths
import RouteAtlas.Proofs.RootConfinement
import RouteAtlas.Proofs.RouteIdentity
import RouteAtlas.Proofs.RouteLabels
import RouteAtlas.Proofs.RouteListings
import RouteAtlas.Proofs.RouteOrigins
import RouteAtlas.Proofs.RouterCalls
import RouteAtlas.Proofs.RouterOutlines
import RouteAtlas.Proofs.RouterPaths
import RouteAtlas.Proofs.RouterReadings
import RouteAtlas.Proofs.RouterSettings
import RouteAtlas.Proofs.RoutesApart
import RouteAtlas.Proofs.SchemaChains
import RouteAtlas.Proofs.SchemaMarkers
import RouteAtlas.Proofs.SchemaParts
import RouteAtlas.Proofs.SchemaReferences
import RouteAtlas.Proofs.SchemaValues
import RouteAtlas.Proofs.SettingAnchors
import RouteAtlas.Proofs.SettledHandlers
import RouteAtlas.Proofs.ShapeFiles
import RouteAtlas.Proofs.SharedControllers
import RouteAtlas.Proofs.SharedNames
import RouteAtlas.Proofs.SharedTexts
import RouteAtlas.Proofs.SkippedFiles
import RouteAtlas.Proofs.SourcePieces
import RouteAtlas.Proofs.StatementPieces
import RouteAtlas.Proofs.StringLiterals
import RouteAtlas.Proofs.TreePlaces
import RouteAtlas.Proofs.TreeWalks
import RouteAtlas.Proofs.TypeArguments
import RouteAtlas.Proofs.TypeForms
import RouteAtlas.Proofs.TypePieces
import RouteAtlas.Proofs.TypedSources
import RouteAtlas.Proofs.Unfoldings
import RouteAtlas.Proofs.WrappedProcedures
import RouteAtlas.Report
import RouteAtlas.Route.Basic
import RouteAtlas.Route.Path
import RouteAtlas.Route.Query
import RouteAtlas.Route.Segment
import RouteAtlas.Route.Verb
import RouteAtlas.Router.Cycle
import RouteAtlas.Router.Graph
import RouteAtlas.Router.Name
import RouteAtlas.Router.Title
import RouteAtlas.Scan
import RouteAtlas.Schema.Basic
import RouteAtlas.Schema.Interpret
import RouteAtlas.Shape.Basic
import RouteAtlas.Shape.Example
import RouteAtlas.Shape.Members
import RouteAtlas.Shape.Reading
import RouteAtlas.Syntax.Grammar.Basic
import RouteAtlas.Syntax.Grammar.Expressions
import RouteAtlas.Syntax.Grammar.Literals
import RouteAtlas.Syntax.Grammar.Markup
import RouteAtlas.Syntax.Grammar.Patterns
import RouteAtlas.Syntax.Grammar.Statements
import RouteAtlas.Syntax.Grammar.Types
import RouteAtlas.Syntax.Kind
import RouteAtlas.Syntax.Literal
import RouteAtlas.Syntax.Node
import RouteAtlas.Syntax.Source
import RouteAtlas.Syntax.SourceFile
import RouteAtlas.Syntax.Static
import RouteAtlas.Syntax.Tree
import RouteAtlas.Text.Blank
import RouteAtlas.Text.Case
import RouteAtlas.Text.Markup
import RouteAtlas.Text.Pattern
import RouteAtlas.Text.Pattern.Reader
import RouteAtlas.Text.Quoted
import RouteAtlas.Text.Utf8
import RouteAtlas.Text.Word
import RouteAtlas.Value
import RouteAtlas.Yaml.Printer
import RouteAtlas.Yaml.Reader
import RouteAtlas.Yaml.Style
import RouteAtlas.Yaml.Token
import RouteAtlas.Yaml.Tree
