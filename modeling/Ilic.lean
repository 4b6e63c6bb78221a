import Ilic.Foundation.Segments
import Ilic.Foundation.Text
import Ilic.Repository.RepositoryUri
import Ilic.Repository.LocalPath
import Ilic.Repository.RemoteUri
import Ilic.Repository.Parse
import Ilic.Repository.Reparse
import Ilic.Repository.Resolve
import Ilic.Repository.CrawlAgreement
import Ilic.Repository.FileBelow
import Ilic.RepositoryCore.RepositoryUri
import Ilic.RepositoryCore.ParseAgreement
import Ilic.RepositoryCore.LocalAgreement
import Ilic.RepositoryCore.FileAgreement
import Ilic.RepositoryCore.ResolveAgreement
import Ilic.RepositoryCore.ResourceCoordinator
import Ilic.RepositoryCore.VerifiedContent
import Ilic.Foundation.FirstOfKey
import Ilic.Foundation.Machine
import Ilic.Foundation.Worklist
import Ilic.Foundation.Traversal
import Ilic.Diagnostics.Pipeline
import Ilic.Diagnostics.Publish
import Ilic.RepositoryCore.GraphWalker
import Ilic.RepositoryCore.SearchOrder
import Ilic.RepositoryCore.SearchTermination
import Ilic.Foundation.ReverseIndex
import Ilic.Foundation.Runs
import Ilic.Session.SourceManager
import Ilic.Session.SourceConsistency
import Ilic.Compilation.RunContract
import Ilic.Session.ModelIndex
import Ilic.Session.IndexExactness
import Ilic.Foundation.LruStore
import Ilic.Session.ParsedSourceCache
import Ilic.Session.RootAnalysisCache
import Ilic.Foundation.Chains
import Ilic.Foundation.Ways
import Ilic.Foundation.Closure
import Ilic.MetaModel.FindType
import Ilic.MetaModel.Candidates
import Ilic.MetaModel.TypeLookup
import Ilic.MetaModel.GraphicLookup
import Ilic.MetaModel.Builder
import Ilic.MetaModel.Ili2Input
import Ilic.MetaModel.VisitEffects
import Ilic.MetaModel.Climbs
import Ilic.MetaModel.SelfReference
import Ilic.MetaModel.Extensions
import Ilic.MetaModel.QualifiedNames
import Ilic.Foundation.Lines
import Ilic.Formatting.Formatter
import Ilic.Formatting.MetaAttributes
import Ilic.Formatting.Layout
import Ilic.Formatting.Idempotence
import Ilic.Formatting.KeptLines
import Ilic.Formatting.LexicalPieces
import Ilic.Formatting.CommentAgreement
import Ilic.Formatting.Ili2Lexer
import Ilic.Formatting.Lexemes
import Ilic.Formatting.Relaid
import Ilic.Formatting.RelaidSearches
import Ilic.Formatting.KeptTokens
import Ilic.Formatting.RelaidLines
import Ilic.Formatting.FormattedTokens
import Ilic.Expressions.Syntax
import Ilic.Expressions.Builder
import Ilic.Expressions.Operators
import Ilic.SourceRanges.Decoding
import Ilic.SourceRanges.Mapper
import Ilic.SourceRanges.TokenRanges
import Ilic.SourceRanges.DecodeUnits
import Ilic.SourceRanges.WellFormed
import Ilic.SourceRanges.PositionServices
import Ilic.Repository.ResourceLoader
import Ilic.Repository.VerifiedModels
import Ilic.Foundation.StableSort
import Ilic.Diagnostics.PublishOrder
import Ilic.Session.SourceKeys
import Ilic.Session.CompilerSession
import Ilic.Session.KeyUniqueness
import Ilic.Compilation.CompilationResult
import Ilic.Compilation.Reading
import Ilic.Compilation.MirroredRuns
import Ilic.Compilation.WarningsAsErrors
import Ilic.Compilation.KeptAnalyses
import Ilic.Compilation.IncrementalSoundness
import Ilic.Foundation.Unfolding
import Ilic.MetaModel.ReferenceCheck
import Ilic.MetaModel.ReferenceTermination
import Ilic.Translation.Links
import Ilic.Translation.LinkWalk
import Ilic.Translation.LinkCycles
import Ilic.Translation.ModelGraph
import Ilic.Translation.NameTranslation
import Ilic.Semantics.ExactDecimal
import Ilic.Semantics.AttributeCheck
import Ilic.Semantics.Restriction
import Ilic.Foundation.PathTree
import Ilic.Semantics.EqualityCompatible
import Ilic.Semantics.EnumLiterals
import Ilic.Semantics.EnumTree
import Ilic.Semantics.EnumExtension
import Ilic.Semantics.FormattedLiteral
import Ilic.Semantics.FormattedDomains
import Ilic.Foundation.Shadowing
import Ilic.Semantics.AbstractClasses
import Ilic.Semantics.ClassSpecialization
import Ilic.Foundation.FirstHolder
import Ilic.Semantics.GenericContexts
import Ilic.Foundation.DepthFirst
import Ilic.Repository.Resolution
import Ilic.Repository.ResolutionOrder
import Ilic.Semantics.DecimalOrder
import Ilic.Repository.RepositoryCache
import Ilic.Repository.Materialised
import Ilic.Repository.RepositoryVersion
import Ilic.Foundation.Preorder
import Ilic.Snapshot.Elements
import Ilic.Snapshot.Builder
import Ilic.Snapshot.SemanticSnapshot
import Ilic.Snapshot.Diagram
import Ilic.Snapshot.References
import Ilic.Snapshot.ReferentialClosure
import Ilic.Foundation.Binary64
import Ilic.Foundation.Unicode
import Ilic.Foundation.Insertions
import Ilic.Abi.Json
import Ilic.Abi.JsonGrammar
import Ilic.Abi.JsonTokens
import Ilic.Abi.JsonParser
import Ilic.Abi.JsonRoundTrip
import Ilic.Abi.JsonConformance
import Ilic.Editor.HeaderRecovery
import Ilic.Foundation.Scanner
import Ilic.Output.EnumTokens
import Ilic.Output.EnumOutput
import Ilic.SourceRanges.Cuts
import Ilic.Parser.ParserDiagnosticTranslator
import Ilic.MetaModel.MetaComments
import Ilic.Abi.WellFormedResponses
import Ilic.MetaModel.TypeObjects
import Ilic.MetaModel.CloneAgreement
import Ilic.Foundation.HandleTable
import Ilic.Abi.CapiRegistries
import Ilic.Foundation.SharedLoads
import Ilic.RepositoryCore.RepositoryCatalog
import Ilic.Foundation.MessageDigest
import Ilic.Repository.Md5
import Ilic.RepositoryCore.Md5
import Ilic.Foundation.FirstVisit
import Ilic.Semantics.UnitImports
import Ilic.Parser.DefinitionTree
import Ilic.Editor.EditorSnapshot
import Ilic.Editor.LiveReports
import Ilic.MetaModel.Namespaces
import Ilic.Editor.NamespaceAgreement
import Ilic.Expressions.Tokens
import Ilic.Expressions.Lexemes
import Ilic.Expressions.Parser
import Ilic.Expressions.ParsedTrees
import Ilic.Expressions.Printing
import Ilic.Expressions.Precedence
import Ilic.Expressions.Weights
import Ilic.Expressions.PrintedTrees
import Ilic.Expressions.Rereading
import Ilic.RepositoryCore.RepositoryManagerCore
import Ilic.RepositoryCore.Workspaces
import Ilic.RepositoryCore.ResolutionFaults
import Ilic.RepositoryCore.XmlDecoder
import Ilic.RepositoryCore.XmlDocuments
import Ilic.RepositoryCore.XmlReading
import Ilic.RepositoryCore.ModelListing
import Ilic.Semantics.AcceptedContexts
import Ilic.Semantics.TopicGenerics
import Ilic.MetaModel.PathSteps
import Ilic.Semantics.InheritedNames
